import AgenticCircuit.Dialect.TransferPorts
import AgenticCircuit.Lib.FifoNetwork

/-! # Arbitrated transfers

The end of every generated scheduler: candidates with a request each, one greedy arbiter over
the ports they use, and one `ac.try_transfer` for each candidate, enabled by its grant.

* **`moves`** are the transfers that fire in one evaluation.
* **`Ported`** candidates use a port for their source and one for their destination.  No two
  transfers of theirs that fire have a queue in common, so each of them moves the head of its
  source (`moves_eq`), and a request is refused only for a transfer that fires into the same
  queue or out of it (`exists_grant`). -/

namespace AgenticCircuit.Noc

open List Bool
open Dialect (greedyGrants)

/-! ### Arbitrated transfers -/

section transfers

variable {χ α : Type}

/-- A candidate of the transfer arbiter with the transfer its grant enables. -/
structure Candidate (χ : Type) where
  request : Bool
  source : χ
  destination : χ
  resources : List String

/-- The grants of `ac.arbitrate greedy_fixed_priority`. -/
def grants (candidates : List (Candidate χ)) : List Bool :=
  greedyGrants (fun _ => false) (candidates.map fun c => (c.request, c.resources))

/-- `ac.try_transfer` for each candidate in order, with the flit it moves if it fires.  `popped`
and `pushed` count what the evaluation has proposed so far. -/
def tryTransfers [DecidableEq χ] (depth : χ → ℕ) (queues : χ → List α) :
    List (Candidate χ × Bool) → (χ → ℕ) → (χ → ℕ) → List (Option α)
  | [], _, _ => []
  | (c, enable) :: rest, popped, pushed =>
    match if enable then (queues c.source)[popped c.source]? else none with
    | none => none :: tryTransfers depth queues rest popped pushed
    | some a =>
      if (queues c.destination).length + pushed c.destination < depth c.destination then
        some a :: tryTransfers depth queues rest
          (Function.update popped c.source (popped c.source + 1))
          (Function.update pushed c.destination (pushed c.destination + 1))
      else none :: tryTransfers depth queues rest popped pushed

/-- The result of every `ac.try_transfer`. -/
def transfers [DecidableEq χ] (depth : χ → ℕ) (queues : χ → List α)
    (candidates : List (Candidate χ)) : List (Option α) :=
  tryTransfers depth queues (candidates.zip (grants candidates)) (fun _ => 0) (fun _ => 0)

/-- The transfers that fire, with their queues. -/
def moves [DecidableEq χ] (depth : χ → ℕ) (queues : χ → List α)
    (candidates : List (Candidate χ)) : List (χ × χ × α) :=
  (candidates.zip (transfers depth queues candidates)).filterMap fun x =>
    x.2.map fun a => (x.1.source, x.1.destination, a)

/-! ### The grants -/

variable {occupied : String → Bool} {candidates : List (Candidate χ)} {x : Candidate χ × Bool}
    {c : Candidate χ}

theorem request_of_greedy (hx : x ∈ candidates.zip (greedyGrants occupied
      (candidates.map fun c => (c.request, c.resources)))) (hgrant : x.2 = true) :
    x.1.request = true := by
  induction candidates generalizing occupied with
  | nil => cases hx
  | cons c rest ih =>
    rw [map_cons, greedyGrants, zip_cons_cons] at hx
    rcases mem_cons.mp hx with rfl | hx
    · exact (and_eq_true_iff.mp hgrant).1
    · exact ih hx

theorem free_of_greedy (hx : x ∈ candidates.zip (greedyGrants occupied
      (candidates.map fun c => (c.request, c.resources)))) (hgrant : x.2 = true) :
    ∀ r ∈ x.1.resources, occupied r = false := by
  induction candidates generalizing occupied with
  | nil => cases hx
  | cons c rest ih =>
    rw [map_cons, greedyGrants, zip_cons_cons] at hx
    intro r hr
    rcases mem_cons.mp hx with rfl | hx
    · have hfree := (and_eq_true_iff.mp hgrant).2
      rw [not_eq_true', any_eq_false] at hfree
      exact eq_false_iff.mpr (hfree r hr)
    · exact (or_eq_false_iff.mp (ih hx r hr)).1

theorem pairwise_greedy (candidates : List (Candidate χ)) :
    (candidates.zip (greedyGrants occupied
      (candidates.map fun c => (c.request, c.resources)))).Pairwise
      fun x y => x.2 = true → y.2 = true → ∀ r ∈ x.1.resources, r ∉ y.1.resources := by
  induction candidates generalizing occupied with
  | nil => exact .nil
  | cons c rest ih =>
    rw [map_cons, greedyGrants, zip_cons_cons]
    refine pairwise_cons.mpr ⟨fun y hy hc hgrant r hr hmem => ?_, ih⟩
    -- the first grant has occupied the resource
    have hfree := free_of_greedy hy hgrant r hmem
    dsimp only at hc hr hfree
    rw [hc] at hfree
    simp [hr] at hfree

theorem exists_greedy (hc : c ∈ candidates) (hrequest : c.request = true)
    (hfree : ∀ r ∈ c.resources, occupied r = false) :
    ∃ x ∈ candidates.zip (greedyGrants occupied
      (candidates.map fun c => (c.request, c.resources))), x.2 = true ∧
      (x.1 = c ∨ ∃ r ∈ x.1.resources, r ∈ c.resources) := by
  induction candidates generalizing occupied with
  | nil => cases hc
  | cons d rest ih =>
    by_cases hgrant : (d.request && !d.resources.any occupied) = true
    · by_cases hshares : ∃ r ∈ d.resources, r ∈ c.resources
      · exact ⟨_, mem_cons_self, hgrant, .inr hshares⟩
      rcases mem_cons.mp hc with rfl | hc
      · exact ⟨_, mem_cons_self, hgrant, .inl rfl⟩
      have hstill : ∀ r ∈ c.resources, (occupied r || (d.resources.contains r &&
          (d.request && !d.resources.any occupied))) = false := by
        intro r hr
        have hnot : r ∉ d.resources := fun hmem => hshares ⟨r, hmem, hr⟩
        simp [hfree r hr, hnot]
      obtain ⟨x, hx, hxs⟩ := ih hc hstill
      exact ⟨x, mem_cons_of_mem _ hx, hxs⟩
    · rw [not_eq_true] at hgrant
      rcases mem_cons.mp hc with rfl | hc
      · have hnone : c.resources.any occupied = false := by
          rw [any_eq_false]
          exact fun r hr => eq_false_iff.mp (hfree r hr)
        rw [hrequest, hnone] at hgrant
        cases hgrant
      have hstill : ∀ r ∈ c.resources, (occupied r || (d.resources.contains r &&
          (d.request && !d.resources.any occupied))) = false := by
        intro r hr
        rw [hfree r hr, hgrant, Bool.and_false]
        rfl
      obtain ⟨x, hx, hxs⟩ := ih hc hstill
      exact ⟨x, mem_cons_of_mem _ hx, hxs⟩

theorem exists_grant (hc : c ∈ candidates) (hrequest : c.request = true) :
    ∃ x ∈ candidates.zip (grants candidates), x.2 = true ∧
      (x.1 = c ∨ ∃ r ∈ x.1.resources, r ∈ c.resources) :=
  exists_greedy hc hrequest fun _ _ => rfl

/-- Candidates with a common queue have a common resource. -/
def Ported (candidates : List (Candidate χ)) : Prop :=
  ∀ c ∈ candidates, ∀ d ∈ candidates,
    c.source = d.source ∨ c.destination = d.destination → ∃ r ∈ c.resources, r ∈ d.resources

theorem mem_of_mem_zip {flags : List Bool} (hx : x ∈ candidates.zip flags) : x.1 ∈ candidates :=
  (of_mem_zip (a := x.1) (b := x.2) hx).1

/-- The enabled transfers have no queue in common. -/
def Apart (x y : Candidate χ × Bool) : Prop :=
  x.2 = true → y.2 = true → x.1.source ≠ y.1.source ∧ x.1.destination ≠ y.1.destination

theorem Ported.apart (h : Ported candidates) :
    (candidates.zip (grants candidates)).Pairwise Apart := by
  refine List.Pairwise.imp_of_mem ?_ (pairwise_greedy candidates)
  intro x y hx hy hdisjoint hgx hgy
  have hshare := h x.1 (mem_of_mem_zip hx) y.1 (mem_of_mem_zip hy)
  constructor
  · intro heq
    obtain ⟨r, hrx, hry⟩ := hshare (.inl heq)
    exact hdisjoint hgx hgy r hrx hry
  · intro heq
    obtain ⟨r, hrx, hry⟩ := hshare (.inr heq)
    exact hdisjoint hgx hgy r hrx hry

/-! ### The transfers that fire -/

theorem zip_map_zip {β : Type} (f : Candidate χ × Bool → β) (candidates : List (Candidate χ))
    (flags : List Bool) : candidates.zip ((candidates.zip flags).map f) =
      (candidates.zip flags).map fun x => (x.1, f x) := by
  induction candidates generalizing flags with
  | nil => rfl
  | cons c rest ih =>
    cases flags with
    | nil => rfl
    | cons flag flags => simp [ih]

variable [DecidableEq χ] {depth : χ → ℕ} {queues : χ → List α}

/-- The flit an enabled transfer moves when nothing else touches its queues. -/
def fired (depth : χ → ℕ) (queues : χ → List α) (x : Candidate χ × Bool) : Option α :=
  if x.2 = true ∧ (queues x.1.destination).length < depth x.1.destination then
    (queues x.1.source).head?
  else none

variable {candidates : List (Candidate χ)} {a : α}

theorem tryTransfers_eq {xs : List (Candidate χ × Bool)} {popped pushed : χ → ℕ}
    (hapart : xs.Pairwise Apart)
    (hzero : ∀ x ∈ xs, x.2 = true → popped x.1.source = 0 ∧ pushed x.1.destination = 0) :
    tryTransfers depth queues xs popped pushed = xs.map (fired depth queues) := by
  induction xs generalizing popped pushed with
  | nil => rfl
  | cons x rest ih =>
    obtain ⟨c, enable⟩ := x
    obtain ⟨hfirst, hrest⟩ := pairwise_cons.mp hapart
    have hkeep := ih hrest fun y hy => hzero y (mem_cons_of_mem _ hy)
    cases enable with
    | false => simp [tryTransfers, fired, hkeep]
    | true =>
      obtain ⟨hpop, hpush⟩ := hzero _ mem_cons_self rfl
      rw [tryTransfers, if_pos rfl, hpop, hpush, ← head?_eq_getElem?, Nat.add_zero, map_cons]
      cases hhead : (queues c.source).head? with
      | none => simp [fired, hhead, hkeep]
      | some a =>
        dsimp only
        split
        · rename_i hroom
          rw [ih hrest]
          · simp [fired, hhead, hroom]
          · intro y hy hgrant
            obtain ⟨hsource, hdestination⟩ := hfirst y hy rfl hgrant
            rw [Function.update_of_ne hsource.symm, Function.update_of_ne hdestination.symm]
            exact hzero y (mem_cons_of_mem _ hy) hgrant
        · rename_i hroom
          simp [fired, hroom, hkeep]

theorem Ported.transfers_eq (h : Ported candidates) : transfers depth queues candidates =
      (candidates.zip (grants candidates)).map (fired depth queues) :=
  tryTransfers_eq h.apart fun _ _ _ => ⟨rfl, rfl⟩

theorem Ported.moves_eq (h : Ported candidates) :
    moves depth queues candidates = (candidates.zip (grants candidates)).filterMap fun x =>
      (fired depth queues x).map fun a => (x.1.source, x.1.destination, a) := by
  unfold moves
  rw [h.transfers_eq, zip_map_zip, filterMap_map]
  rfl

omit [DecidableEq χ] in
theorem fired_eq_some {x : Candidate χ × Bool} : fired depth queues x = some a ↔
    x.2 = true ∧ (queues x.1.destination).length < depth x.1.destination ∧
      (queues x.1.source).head? = some a := by
  unfold fired
  split
  · rename_i h
    tauto
  · rename_i h
    constructor
    · nofun
    · exact fun hx => absurd ⟨hx.1, hx.2.1⟩ h

theorem Ported.mem_moves (h : Ported candidates) {c d : χ} :
    (c, d, a) ∈ moves depth queues candidates ↔
      ∃ x ∈ candidates.zip (grants candidates), x.2 = true ∧ x.1.source = c ∧
        x.1.destination = d ∧ (queues c).head? = some a ∧ (queues d).length < depth d := by
  rw [h.moves_eq, mem_filterMap]
  constructor
  · rintro ⟨x, hx, hsome⟩
    obtain ⟨b, hb, heq⟩ := Option.map_eq_some_iff.mp hsome
    obtain ⟨hgrant, hroom, hhead⟩ := fired_eq_some.mp hb
    obtain ⟨rfl, rfl, rfl⟩ : x.1.source = c ∧ x.1.destination = d ∧ b = a := by simpa using heq
    exact ⟨x, hx, hgrant, rfl, rfl, hhead, hroom⟩
  · rintro ⟨x, hx, hgrant, rfl, rfl, hhead, hroom⟩
    refine ⟨x, hx, ?_⟩
    rw [fired_eq_some.mpr ⟨hgrant, hroom, hhead⟩]
    rfl

theorem Ported.pairwise_moves (h : Ported candidates) :
    (moves depth queues candidates).Pairwise fun m m' => m.1 ≠ m'.1 ∧ m.2.1 ≠ m'.2.1 := by
  rw [h.moves_eq]
  refine List.Pairwise.filterMap _ ?_ h.apart
  intro x y hapart m hm m' hm'
  obtain ⟨a, ha, rfl⟩ := Option.map_eq_some_iff.mp hm
  obtain ⟨b, hb, rfl⟩ := Option.map_eq_some_iff.mp hm'
  exact hapart (fired_eq_some.mp ha).1 (fired_eq_some.mp hb).1

theorem Ported.nodup_sources (h : Ported candidates) :
    ((moves depth queues candidates).map Prod.fst).Nodup :=
  pairwise_map.mpr (h.pairwise_moves.imp And.left)

theorem Ported.nodup_destinations (h : Ported candidates) :
    ((moves depth queues candidates).map fun m => m.2.1).Nodup :=
  pairwise_map.mpr (h.pairwise_moves.imp And.right)

end transfers

end AgenticCircuit.Noc
