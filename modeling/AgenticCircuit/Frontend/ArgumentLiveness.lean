import AgenticCircuit.Frontend.Recorded
import AgenticCircuit.Lib.Checks

/-! # Block arguments are the live names

`blockArguments_live`: the passes of `build` come to their end, and a process-local name is an argument
of a block when on some path from the start of the block it is read before it is defined, and only then.

The passes compute what is live in the graph of the recorded uses and definitions (`liveIn_spec`); the
records are those of the actions and edges (`statements_keeps`); and a name is live at a block by the
records when it is read first on a path (`live_iff`).  Where the passes have ended, every argument is at
hand along every edge (`arguments_available`). -/

namespace AgenticCircuit.Frontend

open List
open Touch (Exposed)

variable {names : String → List String} {env : Environment} {parameters : List String} {body : Body}
  {P : ProcessProgram} {n : BlockName} {x : String} {σ τ : Builder}

/-! ### The finished builder -/

/-- What `build` has before the passes: all blocks are closed and their records are right. -/
structure Finished (names : String → List String) (σ : Builder) (P : ProcessProgram) : Prop where
  recorded : Recorded names ∅ entryName [] σ
  program : σ.program = .ok P

namespace Builder

theorem start_recorded (parameters : List String) :
    Recorded names (insert entryName ∅) entryName [] (.start parameters) := by
  refine ⟨nodup_singleton _, ?_, ?_, ?_⟩
  · intro b hb
    rw [mem_singleton.mp hb]
    constructor <;> intro x <;> simp [MutableBlock.touches, Exposed]
  · intro x
    simp [start]
  · intro b hb _
    rw [mem_singleton.mp hb]
    exact .inl rfl

/-- The last block returns when it is open, and then no block is open. -/
theorem finish_last (hbody : body.Readable names)
    (hσ : statements env body (.start parameters) = .ok σ)
    (hτ : (if σ.closed σ.current then .ok σ else σ.finish σ.current .ret) = .ok τ) :
    Recorded names ∅ entryName [] τ := by
  have h := statements_keeps body hbody hσ ∅ (mem_singleton_self _) (start_recorded parameters)
  split at hτ
  · rename_i hclosed
    have heq := Except.ok.inj hτ
    subst heq
    refine ((h.recorded.closed hclosed).moveTo _).mono ?_
    exact fun m hm => hm.1.elim (fun heq => (hm.2 heq).elim) id
  · refine (h.recorded.finish h.current (fun x => ⟨Iff.rfl, Iff.rfl⟩) hτ _).mono ?_
    exact fun m hm => hm.1.elim (fun heq => (hm.2 heq).elim) id

end Builder

theorem constructProcess_finished (hbody : body.Readable names)
    (h : constructProcess env parameters body = .ok P) :
    ∃ σ τ, Builder.statements env body (.start parameters) = .ok σ ∧
      (if σ.closed σ.current then .ok σ else σ.finish σ.current .ret) = .ok τ ∧ Finished names τ P := by
  obtain ⟨σ, hσ, h⟩ := Builder.bind_ok h
  obtain ⟨τ, hτ, hP⟩ : ∃ τ, (if σ.closed σ.current then .ok σ else σ.finish σ.current .ret) = .ok τ ∧
      τ.program = .ok P := by
    split at h
    · rename_i hclosed
      exact ⟨σ, if_pos hclosed, h⟩
    · rename_i hopen
      obtain ⟨τ, hτ, hP⟩ := Builder.bind_ok h
      exact ⟨τ, (if_neg hopen).trans hτ, hP⟩
  exact ⟨σ, τ, hσ, hτ, Builder.finish_last hbody hσ hτ, hP⟩

namespace Finished

variable (h : Finished names σ P)
include h

variable {b : MutableBlock} {p : ProcessBlock}

theorem blocks_eq : P.blocks = σ.blocks.map fun b => ⟨b.name, b.actions, b.edge.getD .ret⟩ := by
  have hP := h.program
  unfold Builder.program at hP
  dsimp only at hP
  split at hP
  · cases hP
    rfl
  · cases hP

theorem closed_targets (hb : b ∈ σ.blocks) {t : BlockName} (ht : t ∈ (b.edge.getD .ret).targets) :
    t ∈ σ.names := by
  have hP := h.program
  unfold Builder.program at hP
  dsimp only at hP
  split at hP
  · rename_i hall
    rw [all_map, all_eq_true] at hall
    have hb := hall b hb
    simp only [Function.comp_apply, all_eq_true, decide_eq_true_eq] at hb
    exact hb t ht
  · cases hP

theorem edge_isSome (hb : b ∈ σ.blocks) : ∃ e, b.edge = some e := by
  cases hedge : b.edge with
  | none => exact (h.recorded.opened b hb hedge).elim
  | some e => exact ⟨e, rfl⟩

theorem block_of_mem (hp : p ∈ P.blocks) : ∃ b ∈ σ.blocks,
    σ.find p.name = some b ∧ b.edge = some p.edge ∧ b.Records (p.touches names) := by
  rw [h.blocks_eq] at hp
  obtain ⟨b, hb, rfl⟩ := mem_map.mp hp
  obtain ⟨e, he⟩ := h.edge_isSome hb
  refine ⟨b, hb, Builder.find_of_mem h.recorded.nodup hb, by rw [he]; rfl, ?_⟩
  have hrecords := h.recorded.records b hb
  rw [ite_self, List.append_nil] at hrecords
  simp only [ProcessBlock.touches, he, Option.getD_some]
  simpa only [MutableBlock.touches, he, Option.elim_some] using hrecords

theorem mem_of_name (hn : n ∈ σ.names) : ∃ p ∈ P.blocks, p.name = n := by
  obtain ⟨b, hb, rfl⟩ := mem_map.mp hn
  refine ⟨⟨b.name, b.actions, b.edge.getD .ret⟩, ?_, rfl⟩
  rw [h.blocks_eq]
  exact mem_map_of_mem hb

theorem name_mem (hp : p ∈ P.blocks) : p.name ∈ σ.names := by
  rw [h.blocks_eq] at hp
  obtain ⟨b, hb, rfl⟩ := mem_map.mp hp
  exact mem_map_of_mem hb

theorem mem_localOrder : x ∈ σ.localOrder ↔ ProcessLocal names P x := by
  rw [h.recorded.order]
  constructor
  · rintro ⟨b, hb, hx⟩
    obtain ⟨p, hp, hname⟩ := h.mem_of_name (mem_map_of_mem hb)
    obtain ⟨c, hc, hfind, -, hrecords⟩ := h.block_of_mem hp
    rw [hname, Builder.find_of_mem h.recorded.nodup hb] at hfind
    cases hfind
    exact ⟨p, hp, (hrecords.definitions x).mp hx⟩
  · rintro ⟨p, hp, hx⟩
    obtain ⟨b, hb, -, -, hrecords⟩ := h.block_of_mem hp
    exact ⟨b, hb, (hrecords.definitions x).mpr hx⟩

/-! ### Live names and paths -/

theorem flowGraph_uses (hp : p ∈ P.blocks) :
    x ∈ σ.flowGraph.uses p.name ↔ Exposed x (p.touches names) := by
  obtain ⟨b, -, hfind, -, hrecords⟩ := h.block_of_mem hp
  rw [← hrecords.uses]
  simp [Builder.flowGraph, hfind]

theorem flowGraph_defs (hp : p ∈ P.blocks) :
    x ∈ σ.flowGraph.defs p.name ↔ Touch.assign x ∈ p.touches names := by
  obtain ⟨b, -, hfind, -, hrecords⟩ := h.block_of_mem hp
  rw [← hrecords.definitions]
  simp [Builder.flowGraph, hfind]

theorem flowGraph_targets (hp : p ∈ P.blocks) : σ.flowGraph.targets p.name = p.edge.targets := by
  obtain ⟨b, -, hfind, hedge, -⟩ := h.block_of_mem hp
  simp [Builder.flowGraph, hfind, hedge]

theorem flowGraph_closed :
    ∀ n ∈ σ.flowGraph.nodes, ∀ t ∈ σ.flowGraph.targets n, t ∈ σ.flowGraph.nodes := by
  intro n hn t ht
  obtain ⟨p, hp, rfl⟩ := h.mem_of_name (mem_reverse.mp hn)
  obtain ⟨b, hb, -, hedge, -⟩ := h.block_of_mem hp
  rw [h.flowGraph_targets hp] at ht
  refine mem_reverse.mpr (h.closed_targets hb ?_)
  rw [hedge]
  exact ht

theorem readFirst_of_live (hlive : Liveness.Live σ.flowGraph x n) (hn : n ∈ σ.names) :
    ReadFirst names P x n := by
  induction hlive with
  | @use n hx =>
    obtain ⟨p, hp, rfl⟩ := h.mem_of_name hn
    refine ⟨[p], .single hp, ?_⟩
    rw [flatMap_singleton]
    exact (h.flowGraph_uses hp).mp hx
  | @through n t hdef ht _ ih =>
    obtain ⟨p, hp, rfl⟩ := h.mem_of_name hn
    have htn : t ∈ σ.names :=
      mem_reverse.mp (h.flowGraph_closed p.name (mem_reverse.mpr hn) t ht)
    obtain ⟨path, hpath, hx⟩ := ih htn
    rw [h.flowGraph_targets hp] at ht
    rw [h.flowGraph_defs hp] at hdef
    refine ⟨p :: path, .cons hp ht hpath, ?_⟩
    rw [flatMap_cons, Touch.exposed_append]
    exact .inr ⟨hdef, hx⟩

theorem live_of_readFirst (hread : ReadFirst names P x n) : Liveness.Live σ.flowGraph x n := by
  obtain ⟨path, hpath, hx⟩ := hread
  induction hpath with
  | single hp =>
    rw [flatMap_singleton] at hx
    exact .use ((h.flowGraph_uses hp).mpr hx)
  | cons hp ht _ ih =>
    rw [flatMap_cons, Touch.exposed_append] at hx
    rcases hx with hx | ⟨hdef, hx⟩
    · exact .use ((h.flowGraph_uses hp).mpr hx)
    · refine .through ?_ ?_ (ih hx)
      · rw [h.flowGraph_defs hp]
        exact hdef
      · rw [h.flowGraph_targets hp]
        exact ht

theorem live_iff (hn : n ∈ σ.names) : Liveness.Live σ.flowGraph x n ↔ ReadFirst names P x n :=
  ⟨fun hlive => h.readFirst_of_live hlive hn, h.live_of_readFirst⟩

end Finished

/-! ### Block arguments -/

theorem Builder.mem_blockArguments {live : BlockName → Finset String} :
    ValueVersion.processLocal x ∈ σ.blockArguments live n ↔ x ∈ σ.localOrder ∧ x ∈ live n := by
  simp only [blockArguments, mem_map, mem_filter, decide_eq_true_eq]
  constructor
  · rintro ⟨y, hy, heq⟩
    have hxy : y = x := congrArg ValueVersion.sourceName heq
    exact hxy ▸ hy
  · exact fun hx => ⟨x, hx, rfl⟩

/-- **Block arguments are the live names.**  For every built program the passes come to their end; the
arguments of a block are process-local names, and such a name is one of them if and only if on some path
from the start of the block it is read before it is defined. -/
theorem blockArguments_live (hbody : body.Readable names)
    (h : constructProcess env parameters body = .ok P) :
    ∃ enough, ∀ budget > enough, ∃ blocks, constructBlocks budget env parameters body = .ok (some blocks) ∧
      blocks.map LiveBlock.block = P.blocks ∧ ∀ b ∈ blocks,
        (∀ v ∈ b.arguments, ∃ x, ProcessLocal names P x ∧ v = .processLocal x) ∧
        ∀ x, ProcessLocal names P x →
          (.processLocal x ∈ b.arguments ↔ ReadFirst names P x b.block.name) := by
  obtain ⟨σ, τ, hσ, hτ, hfin⟩ := constructProcess_finished hbody h
  refine ⟨τ.flowGraph.nodes.length * (Liveness.names τ.flowGraph).card, fun budget hbudget => ?_⟩
  obtain ⟨live, hlive, hspec⟩ := Liveness.liveIn_spec hfin.flowGraph_closed hbudget
  refine ⟨P.blocks.map fun b => ⟨b, τ.blockArguments live b.name⟩, ?_, ?_, ?_⟩
  · have hopen : (τ.blocks.any fun b => b.edge.isNone) = false := by
      rw [any_eq_false]
      intro b hb
      obtain ⟨e, he⟩ := hfin.edge_isSome hb
      simp [he]
    unfold constructBlocks
    rw [hσ]
    simp only [Except.mapError, bind, Except.bind]
    rw [hτ]
    simp [hopen, hlive, hfin.program]
  · rw [map_map]
    exact map_id' _
  · intro b hb
    obtain ⟨p, hp, rfl⟩ := mem_map.mp hb
    refine ⟨fun v hv => ?_, fun x hx => ?_⟩
    · obtain ⟨x, hx, rfl⟩ := mem_map.mp hv
      exact ⟨x, hfin.mem_localOrder.mp (mem_filter.mp hx).1, rfl⟩
    · have hn := hfin.name_mem hp
      rw [Builder.mem_blockArguments, hfin.mem_localOrder, hspec p.name (mem_reverse.mpr hn),
        hfin.live_iff hn]
      exact and_iff_right hx

/-- `for i in range(3): wait_for(i)`. -/
def loopBody : Body :=
  .forLoop (.name "i") (.call { func := .name "range", args := [.int 3] })
    (.simple (callStatement "wait_for" "i") .nil) .nil .nil

/-- What the texts of `loopBody` load. -/
def loopNames : String → List String
  | "range(3)" => ["range"]
  | "i" => ["i"]
  | _ => []

theorem loopBody_readable : loopBody.Readable loopNames := by
  refine ⟨fun x => Iff.rfl, ⟨⟨?_, ?_⟩, trivial⟩, trivial, trivial⟩
  · intro o ho x
    rw [mem_singleton.mp ho]
    exact Iff.rfl
  · intro k hk
    cases hk

def loopHeader : ProcessBlock :=
  ⟨⟨.forLoop, 1⟩, [], .branch (.next "i" "range(3)") ⟨.forBody, 1⟩ ⟨.afterFor, 1⟩⟩

def loopWait : ProcessBlock := ⟨⟨.forBody, 1⟩, [], .suspend "wait_for" ["i"] ⟨.resume, 1⟩⟩

def loopProgram : ProcessProgram where
  entry := entryName
  blocks := [⟨entryName, [], .jump ⟨.forLoop, 1⟩⟩, loopHeader, loopWait, ⟨⟨.afterFor, 1⟩, [], .ret⟩,
    ⟨⟨.resume, 1⟩, [], .jump ⟨.forLoop, 1⟩⟩]
  effects := [⟨"wait_for", .suspension⟩]

/-- The target is an argument of the body, which reads it, and not of the header, which defines it. -/
theorem blockArguments_live_loop : ∃ enough, ∀ budget > enough, ∃ blocks,
    constructBlocks budget frontendEnvironment [] loopBody = .ok (some blocks) ∧
      (∃ b ∈ blocks, b.block = loopWait ∧ .processLocal "i" ∈ b.arguments) ∧
      ∃ b ∈ blocks, b.block = loopHeader ∧ .processLocal "i" ∉ b.arguments := by
  have hP : constructProcess frontendEnvironment [] loopBody = .ok loopProgram := rfl
  obtain ⟨enough, h⟩ := blockArguments_live loopBody_readable hP
  refine ⟨enough, fun budget hbudget => ?_⟩
  obtain ⟨blocks, hblocks, hmap, hlive⟩ := h budget hbudget
  have hheader : loopHeader ∈ loopProgram.blocks := by simp [loopProgram]
  have hwait : loopWait ∈ loopProgram.blocks := by simp [loopProgram]
  have hlocal : ProcessLocal loopNames loopProgram "i" :=
    ⟨loopHeader, hheader, mem_cons_of_mem _ mem_cons_self⟩
  rw [← hmap] at hheader hwait
  obtain ⟨header, hmemHeader, heqHeader⟩ := mem_map.mp hheader
  obtain ⟨wait, hmemWait, heqWait⟩ := mem_map.mp hwait
  refine ⟨blocks, hblocks, ⟨wait, hmemWait, heqWait, ?_⟩, header, hmemHeader, heqHeader, ?_⟩
  · rw [(hlive wait hmemWait).2 "i" hlocal, heqWait]
    exact ⟨[loopWait], .single (hmap ▸ hwait), .inl rfl⟩
  · rw [(hlive header hmemHeader).2 "i" hlocal, heqHeader]
    rintro ⟨path, hpath, hx⟩
    obtain ⟨b, rest, rfl, hb, hname⟩ := hpath.head
    have heq : b = loopHeader := by
      simp only [loopProgram, mem_cons, not_mem_nil, or_false] at hb
      rcases hb with rfl | rfl | rfl | rfl | rfl <;> first | rfl | cases hname
    subst heq
    rcases hx with hx | ⟨hne, -⟩
    · exact absurd hx (by decide)
    · exact hne rfl

/-! ### Arguments along edges -/

theorem mapError_ok {ε ε' α : Type} {f : ε → ε'} {r : Except ε α} {a : α}
    (h : r.mapError f = .ok a) : r = .ok a := by
  cases r with
  | error => cases h
  | ok => exact congrArg _ (Except.ok.inj h)

/-- **Values reach their uses.**  The blocks of a program have distinct names.  A process-local name
that a block reads first is an argument of the block; an edge leads to a block, and the block it
leaves has or defines whatever is an argument there. -/
theorem arguments_available (hbody : body.Readable names) {budget : ℕ} {blocks : List LiveBlock}
    (h : constructBlocks budget env parameters body = .ok (some blocks)) :
    (blocks.map fun b => b.block.name).Nodup ∧ ∀ b ∈ blocks,
      (∀ x, (∃ c ∈ blocks, .assign x ∈ c.block.touches names) → Exposed x (b.block.touches names) →
        .processLocal x ∈ b.arguments) ∧
      ∀ t ∈ b.block.edge.targets, ∃ c ∈ blocks, c.block.name = t ∧ ∀ v ∈ c.arguments,
        v ∈ b.arguments ∨ ∃ x, v = .processLocal x ∧ .assign x ∈ b.block.touches names := by
  obtain ⟨σ, hσ, h⟩ := Checks.bind_ok.mp h
  obtain ⟨τ, hτ, h⟩ := Checks.bind_ok.mp h
  split at h
  · cases h
  split at h
  · cases h
  rename_i live hlive
  obtain ⟨P, hP, h⟩ := Checks.bind_ok.mp h
  cases h
  have hfin : Finished names τ P :=
    ⟨Builder.finish_last hbody (mapError_ok hσ) (mapError_ok hτ), mapError_ok hP⟩
  have hstable := Liveness.passes_stable .empty hlive
  refine ⟨?_, fun b hb => ?_⟩
  · have hnames : P.blocks.map ProcessBlock.name = τ.names := by
      rw [hfin.blocks_eq, map_map]
      rfl
    rw [map_map]
    exact hnames ▸ hfin.recorded.nodup
  obtain ⟨p, hp, rfl⟩ := mem_map.mp hb
  have hp' := mem_reverse.mpr (hfin.name_mem hp)
  refine ⟨fun x ⟨c, hc, hx⟩ hread => ?_, fun t ht => ?_⟩
  · obtain ⟨q, hq, rfl⟩ := mem_map.mp hc
    rw [Builder.mem_blockArguments, hfin.mem_localOrder, ← hstable _ hp', Liveness.mem_transfer]
    exact ⟨⟨q, hq, hx⟩, .inl ((hfin.flowGraph_uses hp).mpr hread)⟩
  · rw [← hfin.flowGraph_targets hp] at ht
    obtain ⟨q, hq, rfl⟩ := hfin.mem_of_name (mem_reverse.mp (hfin.flowGraph_closed _ hp' t ht))
    refine ⟨_, mem_map_of_mem hq, rfl, fun v hv => ?_⟩
    obtain ⟨x, hx, rfl⟩ := mem_map.mp hv
    by_cases hdef : .assign x ∈ p.touches names
    · exact .inr ⟨x, rfl, hdef⟩
    · obtain ⟨horder, hx⟩ := mem_filter.mp hx
      rw [← hfin.flowGraph_defs hp] at hdef
      refine .inl (Builder.mem_blockArguments.mpr ⟨horder, ?_⟩)
      rw [← hstable _ hp', Liveness.mem_transfer]
      exact .inr ⟨hdef, _, ht, of_decide_eq_true hx⟩

/-- The body of the loop reads the target, which the header defines. -/
theorem arguments_available_loop : ∃ blocks,
    constructBlocks 9 frontendEnvironment [] loopBody = .ok (some blocks) ∧
      ∃ b ∈ blocks, b.block = loopWait ∧ .processLocal "i" ∈ b.arguments := by
  have h : constructBlocks 9 frontendEnvironment [] loopBody =
    .ok (some (loopProgram.blocks.map fun b => ⟨b, if b = loopWait then [.processLocal "i"] else []⟩)) := by
    decide +kernel
  refine ⟨_, h, _, mem_map_of_mem (a := loopWait) (by simp [loopProgram]), rfl, ?_⟩
  refine ((arguments_available loopBody_readable h).2 _ (mem_map_of_mem (by simp [loopProgram]))).1 "i"
    ⟨_, mem_map_of_mem (a := loopHeader) (by simp [loopProgram]), ?_⟩ (.inl rfl)
  exact mem_cons_of_mem _ mem_cons_self

end AgenticCircuit.Frontend
