import Mathlib.Data.List.Nodup
import Mathlib.Order.Lattice

/-! # Networks of queues with deterministic routes

Packets travel through first-in first-out channels.  `next c a` is the channel to which the payload
`a` moves from the channel `c`, if it moves at all; packets enter at input channels and leave at
output channels.  `Delivers` holds in every run, whatever the order and the pace of its moves: no
packet is lost or duplicated, and two packets of one origin with the same routes never overtake each
other.

* **`Flit`** is a payload with the channel and the place at which it was accepted.
* **`Traffic.Step`** accepts, moves or consumes one packet.
* **`Shortens`** is the condition on the routes: a measure that every move decreases.
* **`Served`** says it for packets that name their output (`Leads`): every packet is in one place,
  leaves at the output it names, and in the order of its acceptance.
* **`Traffic.commit`** makes a set of moves at once; it is a path of single moves when no channel
  is left twice (`commit_steps`). -/

namespace AgenticCircuit.FifoNetwork

open List Function Option
open Relation (ReflTransGen)

/-- A payload with the channel and the place at which it was accepted. -/
structure Flit (χ φ : Type) where
  origin : χ
  serial : ℕ
  payload : φ
deriving DecidableEq

/-- The contents of the channels, with what has been accepted and consumed so far. -/
structure Traffic (χ φ : Type) where
  queues : χ → List (Flit χ φ)
  accepted : List (Flit χ φ) := []
  consumed : List (χ × Flit χ φ) := []

variable {χ φ : Type} [DecidableEq χ]

namespace Traffic

/-- An empty network. -/
def empty : Traffic χ φ := { queues := fun _ => [] }

/-- The flit that a payload becomes when `c` accepts it now. -/
def flit (s : Traffic χ φ) (c : χ) (a : φ) : Flit χ φ := ⟨c, s.accepted.length, a⟩

def accept (s : Traffic χ φ) (c : χ) (a : φ) : Traffic χ φ :=
  { s with
    queues := update s.queues c (s.queues c ++ [s.flit c a])
    accepted := s.accepted ++ [s.flit c a] }

/-- The head of `c` moves to the end of `d`. -/
def hop (s : Traffic χ φ) (c d : χ) (a : Flit χ φ) : Traffic χ φ :=
  let pushed := update s.queues d (s.queues d ++ [a])
  { s with queues := update pushed c (pushed c).tail }

def consume (s : Traffic χ φ) (c : χ) (a : Flit χ φ) : Traffic χ φ :=
  { s with
    queues := update s.queues c (s.queues c).tail
    consumed := s.consumed ++ [(c, a)] }

end Traffic

/-- The routes of a network. -/
structure Routes (χ φ : Type) where
  next : χ → φ → Option χ
  input : χ → Prop
  output : χ → Prop

/-- One packet is accepted, moves or is consumed. -/
inductive Traffic.Step (N : Routes χ φ) : Traffic χ φ → Traffic χ φ → Prop
  | accept {s : Traffic χ φ} (c : χ) (a : φ) (hinput : N.input c) : Step N s (s.accept c a)
  | hop {s : Traffic χ φ} {c d : χ} {a : Flit χ φ} {rest : List (Flit χ φ)}
      (hhead : s.queues c = a :: rest) (hnext : N.next c a.payload = some d) :
      Step N s (s.hop c d a)
  | consume {s : Traffic χ φ} {c : χ} {a : Flit χ φ} {rest : List (Flit χ φ)}
      (houtput : N.output c) (hhead : s.queues c = a :: rest) : Step N s (s.consume c a)

/-! ### Routes -/

/-- The channel of a packet after `k` moves. -/
def Routes.path (N : Routes χ φ) (a : Flit χ φ) : ℕ → Option χ
  | 0 => some a.origin
  | k + 1 => (N.path a k).bind fun c => N.next c a.payload

/-- Two packets that enter at the same channel and take the same turns. -/
def Routes.Alike (N : Routes χ φ) (a b : Flit χ φ) : Prop :=
  a.origin = b.origin ∧ ∀ c, N.next c a.payload = N.next c b.payload

/-- Every move decreases `toGo`, and nothing moves on from an output channel. -/
structure Routes.Shortens (N : Routes χ φ) (toGo : χ → φ → ℕ) : Prop where
  decreases : ∀ {c d a}, N.next c a = some d → toGo d a < toGo c a
  output : ∀ {c}, N.output c → ∀ a, N.next c a = none

section routes

variable {N : Routes χ φ} {toGo : χ → φ → ℕ} {a b : Flit χ φ} {c d : χ} {i j : ℕ}

omit [DecidableEq χ]

theorem Routes.Alike.path_eq (h : N.Alike a b) (k : ℕ) : N.path a k = N.path b k := by
  induction k with
  | zero => exact congrArg some h.1
  | succ k ih =>
    rw [Routes.path, Routes.path, ih]
    cases N.path b k with
    | none => rfl
    | some c => exact h.2 c

theorem Routes.Alike.symm (h : N.Alike a b) : N.Alike b a :=
  ⟨h.1.symm, fun c => (h.2 c).symm⟩

theorem Routes.path_succ (hc : N.path a i = some c) : N.path a (i + 1) = N.next c a.payload := by
  rw [Routes.path, hc]
  rfl

theorem Routes.Shortens.path_lt (hN : N.Shortens toGo) (hij : i < j)
    (hc : N.path a i = some c) (hd : N.path a j = some d) :
    toGo d a.payload < toGo c a.payload := by
  induction j generalizing d with
  | zero => omega
  | succ j ih =>
    obtain ⟨e, he, hnext⟩ := bind_eq_some_iff.mp hd
    have hlast : toGo d a.payload < toGo e a.payload := hN.decreases hnext
    rcases Nat.lt_or_eq_of_le (Nat.le_of_lt_succ hij) with hlt | rfl
    · exact hlast.trans (ih hlt he)
    · obtain rfl : c = e := some.inj (hc.symm.trans he)
      exact hlast

/-- A route never comes back to a channel. -/
theorem Routes.Shortens.path_injective (hN : N.Shortens toGo) (hi : N.path a i = some c)
    (hj : N.path a j = some c) : i = j := by
  rcases Nat.lt_trichotomy i j with h | h | h
  · exact absurd (hN.path_lt h hi hj) (lt_irrefl _)
  · exact h
  · exact absurd (hN.path_lt h hj hi) (lt_irrefl _)

theorem Routes.Shortens.ne_of_next (hN : N.Shortens toGo)
    (h : N.next c a.payload = some d) : c ≠ d := by
  rintro rfl
  exact absurd (hN.decreases h) (lt_irrefl _)

end routes

/-! ### What holds in every state -/

/-- The packet is still in a channel, or has left through one. -/
def Traffic.At (s : Traffic χ φ) (a : Flit χ φ) (c : χ) : Prop :=
  a ∈ s.queues c ∨ (c, a) ∈ s.consumed

/-- Nothing is lost, duplicated, led astray or overtaken. -/
structure Traffic.Delivers (N : Routes χ φ) (s : Traffic χ φ) : Prop where
  serials : s.accepted.map Flit.serial = List.range s.accepted.length
  entered : ∀ a ∈ s.accepted, N.input a.origin
  kept : ∀ a, a ∈ s.accepted ↔ ∃ c, s.At a c
  queue_nodup : ∀ c, (s.queues c).Nodup
  consumed_nodup : (s.consumed.map Prod.snd).Nodup
  queue_unique : ∀ {a c d}, a ∈ s.queues c → a ∈ s.queues d → c = d
  not_consumed : ∀ {a c d}, a ∈ s.queues c → (d, a) ∉ s.consumed
  on_path : ∀ {a c}, s.At a c → ∃ k, N.path a k = some c
  exits : ∀ {a c}, (c, a) ∈ s.consumed → N.output c
  /-- Packets of one kind stand in a channel in the order of their acceptance. -/
  fifo : ∀ c, (s.queues c).Pairwise fun a b => N.Alike a b → a.serial < b.serial
  /-- Of two packets of one kind the earlier one is at least as far. -/
  ahead : ∀ {a b c d i j}, N.Alike a b → a.serial < b.serial → s.At a c → s.At b d →
    N.path a i = some c → N.path b j = some d → j ≤ i
  consumed_fifo : s.consumed.Pairwise fun x y => N.Alike x.2 y.2 → x.2.serial < y.2.serial
  consumed_first : ∀ {a b c}, N.Alike a b → a.serial < b.serial → a ∈ s.accepted →
    (c, b) ∈ s.consumed → ∃ d, (d, a) ∈ s.consumed

namespace Traffic

section delivers

variable {N : Routes χ φ} {toGo : χ → φ → ℕ} {s : Traffic χ φ} {a b : Flit χ φ} {c d : χ}
  {rest : List (Flit χ φ)}

variable {x : Flit χ φ} {p : φ}

omit [DecidableEq χ] in
theorem Delivers.serial_injective (h : s.Delivers N) (ha : s.At a c) (hb : s.At b d)
    (heq : a.serial = b.serial) : a = b := by
  have hnodup : (s.accepted.map Flit.serial).Nodup := by
    rw [h.serials]
    exact nodup_range
  exact inj_on_of_nodup_map hnodup ((h.kept a).mpr ⟨c, ha⟩) ((h.kept b).mpr ⟨d, hb⟩) heq

omit [DecidableEq χ] in
theorem Delivers.serial_lt (h : s.Delivers N) (ha : a ∈ s.accepted) :
    a.serial < s.accepted.length := by
  have hmem := mem_map_of_mem (f := Flit.serial) ha
  rw [h.serials, mem_range] at hmem
  exact hmem

omit [DecidableEq χ] in
theorem Delivers.at_unique (h : s.Delivers N) (hc : s.At a c) (hd : s.At a d) : c = d := by
  rcases hc with hc | hc
  · rcases hd with hd | hd
    · exact h.queue_unique hc hd
    · exact absurd hd (h.not_consumed hc)
  · rcases hd with hd | hd
    · exact absurd hc (h.not_consumed hd)
    · have hpair := inj_on_of_nodup_map h.consumed_nodup hc hd rfl
      exact congrArg Prod.fst hpair

omit [DecidableEq χ] in
/-- A packet is where it entered, or has come along its route. -/
theorem Delivers.exists_previous (h : s.Delivers N) (ha : s.At a c) :
    a.origin = c ∨ ∃ d k, N.path a k = some d ∧ N.next d a.payload = some c := by
  obtain ⟨k, hk⟩ := h.on_path ha
  cases k with
  | zero => exact .inl (some.inj hk)
  | succ k =>
    obtain ⟨d, hd, hnext⟩ := bind_eq_some_iff.mp hk
    exact .inr ⟨d, k, hd, hnext⟩

omit [DecidableEq χ] in
theorem empty_delivers : (empty : Traffic χ φ).Delivers N := by
  have hno : ∀ a c, ¬ (empty : Traffic χ φ).At a c := by
    rintro a c (h | h)
    · cases h
    · cases h
  refine ⟨rfl, nofun, fun a => ⟨nofun, fun ⟨c, h⟩ => absurd h (hno a c)⟩, fun _ => .nil, .nil,
    nofun, nofun, fun h => absurd h (hno _ _), nofun, fun _ => .nil, ?_, .nil, nofun⟩
  exact fun _ _ h => absurd h (hno _ _)

/-! ### Accepting a packet -/

theorem mem_accept_queues :
    x ∈ (s.accept c p).queues d ↔ x ∈ s.queues d ∨ d = c ∧ x = s.flit c p := by
  unfold accept
  by_cases hd : d = c
  · subst hd
    simp
  · simp [hd]

theorem accept_queues_of_ne (h : d ≠ c) : (s.accept c p).queues d = s.queues d :=
  update_of_ne h _ _

theorem accept_at : (s.accept c p).At x d ↔ s.At x d ∨ d = c ∧ x = s.flit c p := by
  unfold At
  rw [mem_accept_queues]
  change _ ∨ (d, x) ∈ s.consumed ↔ _
  tauto

theorem Delivers.accept (hN : N.Shortens toGo) (h : s.Delivers N) (hinput : N.input c) :
    (s.accept c p).Delivers N := by
  have hnew : s.flit c p ∉ s.accepted := fun hmem => absurd (h.serial_lt hmem) (lt_irrefl _)
  have hfresh : ∀ d, ¬ s.At (s.flit c p) d := fun d hd => hnew ((h.kept _).mpr ⟨d, hd⟩)
  have hold {x : Flit χ φ} {d : χ} (hx : s.At x d) : x.serial < (s.flit c p).serial :=
    h.serial_lt ((h.kept x).mpr ⟨d, hx⟩)
  have hstart : N.path (s.flit c p) 0 = some c := rfl
  constructor
  case serials =>
    change (s.accepted ++ [s.flit c p]).map Flit.serial = _
    simp [Traffic.accept, h.serials, range_succ, flit]
  case entered =>
    intro x hx
    rcases mem_append.mp hx with hx | hx
    · exact h.entered x hx
    · rw [mem_singleton.mp hx]
      exact hinput
  case kept =>
    intro x
    change x ∈ s.accepted ++ [s.flit c p] ↔ _
    simp [accept_at, h.kept x, exists_or]
  case queue_nodup =>
    intro d
    by_cases hd : d = c
    · subst hd
      simp only [Traffic.accept, update_self]
      refine nodup_append.mpr ⟨h.queue_nodup d, nodup_singleton _, ?_⟩
      intro x hx y hy heq
      rw [mem_singleton.mp hy] at heq
      exact hfresh d (.inl (heq ▸ hx))
    · simp only [Traffic.accept, update_of_ne hd]
      exact h.queue_nodup d
  case consumed_nodup => exact h.consumed_nodup
  case queue_unique =>
    intro x d e hd he
    rw [mem_accept_queues] at hd he
    rcases hd with hd | ⟨rfl, rfl⟩
    · rcases he with he | ⟨rfl, rfl⟩
      · exact h.queue_unique hd he
      · exact absurd (.inl hd) (hfresh d)
    · rcases he with he | ⟨rfl, _⟩
      · exact absurd (.inl he) (hfresh e)
      · rfl
  case not_consumed =>
    intro x d e hd he
    rw [mem_accept_queues] at hd
    rcases hd with hd | ⟨rfl, rfl⟩
    · exact h.not_consumed hd he
    · exact hfresh e (.inr he)
  case on_path =>
    intro x d hx
    rcases accept_at.mp hx with hx | ⟨rfl, rfl⟩
    · exact h.on_path hx
    · exact ⟨0, hstart⟩
  case exits => exact fun hx => h.exits hx
  case fifo =>
    intro d
    by_cases hd : d = c
    · subst hd
      simp only [Traffic.accept, update_self]
      refine pairwise_append.mpr ⟨h.fifo d, pairwise_singleton _ _, ?_⟩
      intro x hx y hy _
      rw [mem_singleton.mp hy]
      exact hold (.inl hx)
    · simp only [Traffic.accept, update_of_ne hd]
      exact h.fifo d
  case ahead =>
    intro x y d e i j halike hlt hx hy hi hj
    rcases accept_at.mp hy with hold_y | ⟨rfl, rfl⟩
    · rcases accept_at.mp hx with hold_x | ⟨rfl, rfl⟩
      · exact h.ahead halike hlt hold_x hold_y hi hj
      · exact absurd (hold hold_y) (by omega)
    · rw [hN.path_injective hj hstart]
      exact Nat.zero_le i
  case consumed_fifo => exact h.consumed_fifo
  case consumed_first =>
    intro x y d halike hlt hx hy
    rcases mem_append.mp hx with hx | hx
    · exact h.consumed_first halike hlt hx hy
    · rw [mem_singleton.mp hx] at hlt
      exact absurd (hold (.inr hy)) (by omega)

/-! ### Moving a packet -/

omit [DecidableEq χ] in
/-- What the head of a channel and those behind it satisfy. -/
theorem Delivers.of_head (h : s.Delivers N) (hhead : s.queues c = a :: rest) :
    (a ∉ rest ∧ rest.Nodup) ∧ (∀ b ∈ rest, N.Alike a b → a.serial < b.serial) ∧
      rest.Pairwise fun a b => N.Alike a b → a.serial < b.serial := by
  have hnodup := h.queue_nodup c
  have hfifo := h.fifo c
  rw [hhead] at hnodup hfifo
  exact ⟨nodup_cons.mp hnodup, pairwise_cons.mp hfifo⟩

omit [DecidableEq χ] in
theorem mem_of_head (hhead : s.queues c = a :: rest) : a ∈ s.queues c := by
  rw [hhead]
  exact mem_cons_self

theorem hop_queues (hhead : s.queues c = a :: rest) (hne : c ≠ d) :
    (s.hop c d a).queues c = rest ∧ (s.hop c d a).queues d = s.queues d ++ [a] ∧
      ∀ e, e ≠ c → e ≠ d → (s.hop c d a).queues e = s.queues e := by
  unfold hop
  dsimp only
  refine ⟨?_, ?_, fun e hc hd => ?_⟩
  · rw [update_self, update_of_ne hne, hhead]
    rfl
  · rw [update_of_ne hne.symm, update_self]
  · rw [update_of_ne hc, update_of_ne hd]

section

variable (h : s.Delivers N) (hhead : s.queues c = a :: rest)

include h hhead

variable {x : Flit χ φ} {e : χ}

theorem Delivers.mem_hop (hne : c ≠ d) :
    x ∈ (s.hop c d a).queues e ↔ x ≠ a ∧ x ∈ s.queues e ∨ x = a ∧ e = d := by
  obtain ⟨hc, hd, hother⟩ := hop_queues hhead hne
  have ha := mem_of_head hhead
  have hrest := (h.of_head hhead).1.1
  have helse {e : χ} (he : e ≠ c) : a ∉ s.queues e := fun hmem => he (h.queue_unique hmem ha)
  by_cases hec : e = c
  · subst hec
    rw [hc, hhead, mem_cons]
    constructor
    · intro hx
      exact .inl ⟨fun heq => hrest (heq ▸ hx), .inr hx⟩
    · rintro (⟨hxa, hx⟩ | ⟨_, heq⟩)
      · exact hx.resolve_left hxa
      · exact absurd heq hne
  by_cases hed : e = d
  · subst hed
    rw [hd, mem_append, mem_singleton]
    constructor
    · rintro (hx | rfl)
      · exact .inl ⟨fun heq => helse hec (heq ▸ hx), hx⟩
      · exact .inr ⟨rfl, rfl⟩
    · rintro (⟨_, hx⟩ | ⟨rfl, _⟩)
      · exact .inl hx
      · exact .inr rfl
  · rw [hother e hec hed]
    constructor
    · intro hx
      exact .inl ⟨fun heq => helse hec (heq ▸ hx), hx⟩
    · rintro (⟨_, hx⟩ | ⟨_, heq⟩)
      · exact hx
      · exact absurd heq hed

theorem Delivers.hop_at (hne : c ≠ d) :
    (s.hop c d a).At x e ↔ x ≠ a ∧ s.At x e ∨ x = a ∧ e = d := by
  have ha := mem_of_head hhead
  unfold At
  rw [h.mem_hop hhead hne]
  change _ ∨ (e, x) ∈ s.consumed ↔ _
  constructor
  · rintro ((⟨hx, hmem⟩ | hx) | hx)
    · exact .inl ⟨hx, .inl hmem⟩
    · exact .inr hx
    · exact .inl ⟨fun heq => h.not_consumed ha (heq ▸ hx), .inr hx⟩
  · rintro (⟨hx, hmem | hmem⟩ | hx)
    · exact .inl (.inl ⟨hx, hmem⟩)
    · exact .inr hmem
    · exact .inl (.inr hx)

omit [DecidableEq χ] in
theorem Delivers.gone_ahead {i j : ℕ} (halike : N.Alike b a) (hlt : b.serial < a.serial)
    (hb : s.At b e) (hi : N.path b i = some e) (hj : N.path a j = some c) :
    j ≤ i ∧ (i = j → (c, b) ∈ s.consumed) := by
  have ha := mem_of_head hhead
  refine ⟨h.ahead halike hlt hb (.inl ha) hi hj, ?_⟩
  rintro rfl
  rw [halike.path_eq, hj] at hi
  obtain rfl : c = e := some.inj hi
  rcases hb with hb | hb
  · exfalso
    rw [hhead] at hb
    rcases mem_cons.mp hb with rfl | hb
    · exact absurd hlt (lt_irrefl _)
    · exact absurd ((h.of_head hhead).2.1 b hb halike.symm) (by omega)
  · exact hb

end

variable {x : Flit χ φ} {e : χ} {t : Traffic χ φ}

theorem Delivers.hop (hN : N.Shortens toGo) (h : s.Delivers N) (hhead : s.queues c = a :: rest)
    (hnext : N.next c a.payload = some d) : (s.hop c d a).Delivers N := by
  have hne : c ≠ d := hN.ne_of_next hnext
  have ha := mem_of_head hhead
  obtain ⟨k, hk⟩ := h.on_path (.inl ha)
  have hk' : N.path a (k + 1) = some d := (N.path_succ hk).trans hnext
  obtain ⟨hc, hd, hother⟩ := hop_queues hhead hne
  have hat {x : Flit χ φ} {e : χ} := h.hop_at (x := x) (e := e) hhead hne
  constructor
  case serials => exact h.serials
  case entered => exact h.entered
  case kept =>
    intro x
    rw [show (s.hop c d a).accepted = s.accepted from rfl, h.kept x]
    constructor
    · rintro ⟨e, he⟩
      by_cases hx : x = a
      · exact ⟨d, hat.mpr (.inr ⟨hx, rfl⟩)⟩
      · exact ⟨e, hat.mpr (.inl ⟨hx, he⟩)⟩
    · rintro ⟨e, he⟩
      rcases hat.mp he with ⟨_, he⟩ | ⟨rfl, _⟩
      · exact ⟨e, he⟩
      · exact ⟨c, .inl ha⟩
  case queue_nodup =>
    intro e
    by_cases hec : e = c
    · subst hec
      rw [hc]
      exact (h.of_head hhead).1.2
    by_cases hed : e = d
    · subst hed
      rw [hd]
      refine nodup_append.mpr ⟨h.queue_nodup e, nodup_singleton _, ?_⟩
      intro x hx y hy heq
      rw [heq, mem_singleton.mp hy] at hx
      exact hne (h.queue_unique ha hx)
    · rw [hother e hec hed]
      exact h.queue_nodup e
  case consumed_nodup => exact h.consumed_nodup
  case queue_unique =>
    intro x e f he hf
    rw [h.mem_hop hhead hne] at he hf
    rcases he with ⟨hx, he⟩ | ⟨hx, rfl⟩
    · rcases hf with ⟨_, hf⟩ | ⟨hx', _⟩
      · exact h.queue_unique he hf
      · exact absurd hx' hx
    · rcases hf with ⟨hx', _⟩ | ⟨_, rfl⟩
      · exact absurd hx hx'
      · rfl
  case not_consumed =>
    intro x e f he hf
    rw [h.mem_hop hhead hne] at he
    rcases he with ⟨_, he⟩ | ⟨rfl, _⟩
    · exact h.not_consumed he hf
    · exact h.not_consumed ha hf
  case on_path =>
    intro x e hx
    rcases hat.mp hx with ⟨_, hx⟩ | ⟨rfl, rfl⟩
    · exact h.on_path hx
    · exact ⟨k + 1, hk'⟩
  case exits => exact fun hx => h.exits hx
  case fifo =>
    intro e
    by_cases hec : e = c
    · subst hec
      rw [hc]
      exact (h.of_head hhead).2.2
    by_cases hed : e = d
    · subst hed
      rw [hd]
      refine pairwise_append.mpr ⟨h.fifo e, pairwise_singleton _ _, ?_⟩
      intro x hx y hy halike
      rw [mem_singleton.mp hy] at halike ⊢
      -- `x` is one hop further than `a` was, so it cannot have come later
      obtain ⟨i, hi⟩ := h.on_path (.inl hx)
      have hik : i = k + 1 := by
        rw [halike.path_eq] at hi
        exact hN.path_injective hi hk'
      by_contra hle
      have hxa : x ≠ a := by
        rintro rfl
        exact hne (h.queue_unique ha hx)
      have hserial : a.serial ≠ x.serial :=
        fun heq => hxa (h.serial_injective (.inl hx) (.inl ha) heq.symm)
      have hback := h.ahead halike.symm (by omega) (.inl ha) (.inl hx) hk hi
      omega
    · rw [hother e hec hed]
      exact h.fifo e
  case ahead =>
    intro x y e f i j halike hlt hx hy hi hj
    rcases hat.mp hx with ⟨_, hxs⟩ | ⟨rfl, rfl⟩
    · rcases hat.mp hy with ⟨_, hys⟩ | ⟨rfl, rfl⟩
      · exact h.ahead halike hlt hxs hys hi hj
      · -- the moved packet is the later one: the earlier one was ahead already
        obtain ⟨hle, hout⟩ := h.gone_ahead hhead halike hlt hxs hi hk
        obtain rfl := hN.path_injective hj hk'
        rcases Nat.lt_or_eq_of_le hle with hlt' | heq
        · exact hlt'
        · have hnone := hN.output (h.exits (hout heq.symm)) y.payload
          rw [hnext] at hnone
          cases hnone
    · rcases hat.mp hy with ⟨_, hys⟩ | ⟨rfl, _⟩
      · obtain rfl := hN.path_injective hi hk'
        have hle := h.ahead halike hlt (.inl ha) hys hk hj
        omega
      · exact absurd hlt (lt_irrefl _)
  case consumed_fifo => exact h.consumed_fifo
  case consumed_first => exact fun halike hlt hx hy => h.consumed_first halike hlt hx hy

/-! ### Consuming a packet -/

theorem consume_queues (hhead : s.queues c = a :: rest) :
    (s.consume c a).queues c = rest ∧ ∀ e, e ≠ c → (s.consume c a).queues e = s.queues e := by
  unfold consume
  dsimp only
  refine ⟨?_, fun e he => ?_⟩
  · rw [update_self, hhead]
    rfl
  · rw [update_of_ne he]

theorem Delivers.mem_consume (h : s.Delivers N) (hhead : s.queues c = a :: rest) :
    x ∈ (s.consume c a).queues e ↔ x ≠ a ∧ x ∈ s.queues e := by
  obtain ⟨hc, hother⟩ := consume_queues hhead
  have ha := mem_of_head hhead
  by_cases hec : e = c
  · subst hec
    have hrest := (h.of_head hhead).1.1
    rw [hc, hhead, mem_cons]
    constructor
    · exact fun hx => ⟨fun heq => hrest (heq ▸ hx), .inr hx⟩
    · exact fun ⟨hxa, hx⟩ => hx.resolve_left hxa
  · rw [hother e hec]
    exact ⟨fun hx => ⟨fun heq => hec (h.queue_unique (heq ▸ hx) ha), hx⟩, And.right⟩

theorem Delivers.consume_at (h : s.Delivers N) (hhead : s.queues c = a :: rest) :
    (s.consume c a).At x e ↔ s.At x e := by
  have ha := mem_of_head hhead
  unfold At
  rw [h.mem_consume hhead]
  change _ ∨ (e, x) ∈ s.consumed ++ [(c, a)] ↔ _
  rw [mem_append, mem_singleton, Prod.mk.injEq]
  constructor
  · rintro (⟨_, hx⟩ | hx | ⟨rfl, rfl⟩)
    · exact .inl hx
    · exact .inr hx
    · exact .inl ha
  · rintro (hx | hx)
    · by_cases hxa : x = a
      · subst hxa
        exact .inr (.inr ⟨h.queue_unique hx ha, rfl⟩)
      · exact .inl ⟨hxa, hx⟩
    · exact .inr (.inl hx)

theorem Delivers.consume (hN : N.Shortens toGo) (h : s.Delivers N) (houtput : N.output c)
    (hhead : s.queues c = a :: rest) : (s.consume c a).Delivers N := by
  have ha := mem_of_head hhead
  obtain ⟨k, hk⟩ := h.on_path (.inl ha)
  obtain ⟨hc, hother⟩ := consume_queues hhead
  have hat {x : Flit χ φ} {e : χ} := h.consume_at (x := x) (e := e) hhead
  have hconsumed {x : Flit χ φ} {e : χ} : (e, x) ∈ (s.consume c a).consumed ↔
      (e, x) ∈ s.consumed ∨ e = c ∧ x = a := by
    change (e, x) ∈ s.consumed ++ [(c, a)] ↔ _
    rw [mem_append, mem_singleton, Prod.mk.injEq]
  -- nothing of this kind can be beyond an output channel
  have hfirst {x : Flit χ φ} (halike : N.Alike x a) (hlt : x.serial < a.serial)
      (hx : x ∈ s.accepted) : ∃ d, (d, x) ∈ s.consumed := by
    obtain ⟨e, he⟩ := (h.kept x).mp hx
    obtain ⟨i, hi⟩ := h.on_path he
    obtain ⟨hle, hout⟩ := h.gone_ahead hhead halike hlt he hi hk
    rcases Nat.lt_or_eq_of_le hle with hlt' | heq
    · obtain ⟨j, rfl⟩ := Nat.exists_eq_add_of_lt hlt'
      have hend : N.path x (k + 1) = none := by
        rw [halike.path_eq, N.path_succ hk]
        exact hN.output houtput _
      have hbeyond : ∀ j, N.path x (k + 1 + j) = none := by
        intro j
        induction j with
        | zero => exact hend
        | succ j ih =>
          change (N.path x (k + 1 + j)).bind _ = none
          rw [ih]
          rfl
      rw [show k + j + 1 = k + 1 + j by omega, hbeyond j] at hi
      cases hi
    · exact ⟨c, hout heq.symm⟩
  constructor
  case serials => exact h.serials
  case entered => exact h.entered
  case kept =>
    intro x
    simp only [hat]
    exact h.kept x
  case queue_nodup =>
    intro e
    by_cases hec : e = c
    · subst hec
      rw [hc]
      exact (h.of_head hhead).1.2
    · rw [hother e hec]
      exact h.queue_nodup e
  case consumed_nodup =>
    change ((s.consumed ++ [(c, a)]).map Prod.snd).Nodup
    rw [map_append, nodup_append]
    refine ⟨h.consumed_nodup, nodup_singleton _, ?_⟩
    intro x hx y hy heq
    obtain ⟨⟨e, x'⟩, hmem, rfl⟩ := mem_map.mp hx
    rw [map_singleton, mem_singleton] at hy
    rw [hy] at heq
    change x' = a at heq
    exact h.not_consumed ha (heq ▸ hmem)
  case queue_unique =>
    intro x e f he hf
    exact h.queue_unique ((h.mem_consume hhead).mp he).2 ((h.mem_consume hhead).mp hf).2
  case not_consumed =>
    intro x e f he hf
    obtain ⟨hxa, he⟩ := (h.mem_consume hhead).mp he
    rcases hconsumed.mp hf with hf | ⟨_, hx⟩
    · exact h.not_consumed he hf
    · exact hxa hx
  case on_path => exact fun hx => h.on_path (hat.mp hx)
  case exits =>
    intro x e hx
    rcases hconsumed.mp hx with hx | ⟨rfl, _⟩
    · exact h.exits hx
    · exact houtput
  case fifo =>
    intro e
    by_cases hec : e = c
    · subst hec
      rw [hc]
      exact (h.of_head hhead).2.2
    · rw [hother e hec]
      exact h.fifo e
  case ahead =>
    exact fun halike hlt hx hy hi hj => h.ahead halike hlt (hat.mp hx) (hat.mp hy) hi hj
  case consumed_fifo =>
    change (s.consumed ++ [(c, a)]).Pairwise _
    refine pairwise_append.mpr ⟨h.consumed_fifo, pairwise_singleton _ _, ?_⟩
    rintro ⟨e, x⟩ hx y hy halike
    rw [mem_singleton.mp hy] at halike ⊢
    by_contra hle
    dsimp only at halike hle
    have hxa : x ≠ a := fun heq => h.not_consumed ha (heq ▸ hx)
    have hserial : a.serial ≠ x.serial :=
      fun heq => hxa (h.serial_injective (.inr hx) (.inl ha) heq.symm)
    obtain ⟨e, he⟩ := h.consumed_first halike.symm (by omega) ((h.kept a).mpr ⟨c, .inl ha⟩) hx
    exact h.not_consumed ha he
  case consumed_first =>
    intro x y e halike hlt hx hy
    rcases hconsumed.mp hy with hy | ⟨_, rfl⟩
    · obtain ⟨d, hd⟩ := h.consumed_first halike hlt hx hy
      exact ⟨d, hconsumed.mpr (.inl hd)⟩
    · obtain ⟨d, hd⟩ := hfirst halike hlt hx
      exact ⟨d, hconsumed.mpr (.inl hd)⟩

theorem Delivers.step (hN : N.Shortens toGo) (h : s.Delivers N) (hstep : Step N s t) :
    t.Delivers N := by
  cases hstep with
  | accept c a hinput => exact h.accept hN hinput
  | hop hhead hnext => exact h.hop hN hhead hnext
  | consume houtput hhead => exact h.consume hN houtput hhead

theorem Delivers.steps (hN : N.Shortens toGo) (h : s.Delivers N)
    (hsteps : ReflTransGen (Step N) s t) : t.Delivers N := by
  induction hsteps with
  | refl => exact h
  | tail _ hstep ih => exact ih.step hN hstep

end delivers

end Traffic

/-! ### Packets that name their output -/

/-- The routes lead a packet to the output that `target` says it names; a packet that names none
is not moved. -/
structure Routes.Leads (N : Routes χ φ) (target : Flit χ φ → Option χ) : Prop where
  arrives : ∀ {a c k}, N.input a.origin → N.path a k = some c → N.output c → target a = some c
  alike : ∀ {a b c}, N.input a.origin → a.origin = b.origin → target a = some c →
    target b = some c → N.Alike a b
  stays : ∀ {a}, N.input a.origin → target a = none → N.next a.origin a.payload = none

/-- Every accepted packet is in one channel or was consumed once, at the output it names; packets
of one origin and output leave in the order of their acceptance. -/
structure Traffic.Served (target : Flit χ φ → Option χ) (s : Traffic χ φ) : Prop where
  serials : s.accepted.map Flit.serial = List.range s.accepted.length
  once : ∀ a ∈ s.accepted, (∃! c, a ∈ s.queues c) ∧ (∀ c, (c, a) ∉ s.consumed) ∨
    (∀ c, a ∉ s.queues c) ∧ ∃! c, (c, a) ∈ s.consumed
  only : ∀ {a c}, s.At a c → a ∈ s.accepted
  queue_nodup : ∀ c, (s.queues c).Nodup
  consumed_nodup : (s.consumed.map Prod.snd).Nodup
  place : ∀ {a c}, (c, a) ∈ s.consumed → target a = some c
  order : s.consumed.Pairwise fun x y =>
    x.2.origin = y.2.origin → x.1 = y.1 → x.2.serial < y.2.serial
  first : ∀ {a b c}, a ∈ s.accepted → a.origin = b.origin → target a = some c →
    a.serial < b.serial → (c, b) ∈ s.consumed → (c, a) ∈ s.consumed
  stays : ∀ {a}, a ∈ s.accepted → target a = none → a ∈ s.queues a.origin

section served

variable {N : Routes χ φ} {s : Traffic χ φ} {target : Flit χ φ → Option χ}

omit [DecidableEq χ] in
theorem Traffic.Delivers.target_of_consumed (h : s.Delivers N) (hleads : N.Leads target)
    {a : Flit χ φ} {c : χ} (hc : (c, a) ∈ s.consumed) : target a = some c := by
  obtain ⟨k, hk⟩ := h.on_path (.inr hc)
  exact hleads.arrives (h.entered a ((h.kept a).mpr ⟨c, .inr hc⟩)) hk (h.exits hc)

omit [DecidableEq χ] in
theorem Traffic.Delivers.served (h : s.Delivers N) (hleads : N.Leads target) : s.Served target := by
  have hconsumed {a : Flit χ φ} {c : χ} (hc : (c, a) ∈ s.consumed) : a ∈ s.accepted :=
    (h.kept a).mpr ⟨c, .inr hc⟩
  constructor
  case serials => exact h.serials
  case only => exact fun hat => (h.kept _).mpr ⟨_, hat⟩
  case queue_nodup => exact h.queue_nodup
  case consumed_nodup => exact h.consumed_nodup
  case place => exact h.target_of_consumed hleads
  case once =>
    intro a ha
    obtain ⟨c, hc | hc⟩ := (h.kept a).mp ha
    · exact .inl ⟨⟨c, hc, fun d hd => h.queue_unique hd hc⟩, fun d => h.not_consumed hc⟩
    · refine .inr ⟨fun d hd => h.not_consumed hd hc, c, hc, fun d hd => ?_⟩
      exact h.at_unique (.inr hd) (.inr hc)
  case order =>
    refine List.Pairwise.imp_of_mem ?_ h.consumed_fifo
    rintro ⟨c, a⟩ ⟨d, b⟩ ha hb hlt horigin hplace
    obtain rfl : c = d := hplace
    exact hlt (hleads.alike (h.entered a (hconsumed ha)) horigin
      (h.target_of_consumed hleads ha) (h.target_of_consumed hleads hb))
  case first =>
    intro a b c ha horigin htarget hlt hb
    have halike := hleads.alike (h.entered a ha) horigin htarget (h.target_of_consumed hleads hb)
    obtain ⟨d, hd⟩ := h.consumed_first halike hlt ha hb
    have hd' := h.target_of_consumed hleads hd
    rw [htarget] at hd'
    rwa [some.inj hd']
  case stays =>
    intro a ha hnone
    have hinput := h.entered a ha
    have hpath : ∀ k, N.path a (k + 1) = none := by
      intro k
      induction k with
      | zero => exact hleads.stays hinput hnone
      | succ k ih =>
        rw [Routes.path, ih]
        rfl
    obtain ⟨c, hc⟩ := (h.kept a).mp ha
    obtain ⟨k, hk⟩ := h.on_path hc
    cases k with
    | succ k =>
      rw [hpath k] at hk
      cases hk
    | zero =>
      obtain rfl : a.origin = c := some.inj hk
      refine hc.resolve_right fun hout => ?_
      rw [h.target_of_consumed hleads hout] at hnone
      cases hnone

end served

namespace Traffic

/-! ### Moves at once -/

section commit

variable {N : Routes χ φ} {s : Traffic χ φ}

/-- A channel after the moves: its entries are appended before its departures are dropped from
the front. -/
def committed (s : Traffic χ φ) (moves : List (χ × χ × Flit χ φ)) (c : χ) : List (Flit χ φ) :=
  (s.queues c ++ (moves.filter fun m => m.2.1 = c).map fun m => m.2.2).drop
    (moves.countP fun m => m.1 = c)

/-- Every listed packet leaves its first channel and enters its second. -/
def commit (s : Traffic χ φ) (moves : List (χ × χ × Flit χ φ)) : Traffic χ φ :=
  { s with queues := s.committed moves }

theorem commit_cons {c d : χ} {a : Flit χ φ} {moves : List (χ × χ × Flit χ φ)}
    (hhead : (s.queues c).head? = some a) (hrest : c ∉ moves.map Prod.fst) (hne : c ≠ d) :
    s.commit ((c, d, a) :: moves) = (s.hop c d a).commit moves := by
  obtain ⟨rest, hqueue⟩ : ∃ rest, s.queues c = a :: rest := by
    cases hq : s.queues c with
    | nil => simp [hq] at hhead
    | cons x rest =>
      rw [hq] at hhead
      exact ⟨rest, by rw [some.inj hhead]⟩
  obtain ⟨hc, hd, hother⟩ := hop_queues hqueue hne
  have hcount : moves.countP (fun m => m.1 = c) = 0 := by
    rw [countP_eq_zero]
    intro m hm heq
    exact hrest (mem_map.mpr ⟨m, hm, of_decide_eq_true heq⟩)
  have hqueues : (s.commit ((c, d, a) :: moves)).queues = ((s.hop c d a).commit moves).queues := by
    funext e
    change s.committed ((c, d, a) :: moves) e = (s.hop c d a).committed moves e
    unfold committed
    by_cases hec : e = c
    · subst hec
      simp [hc, hqueue, hne.symm]
    by_cases hed : e = d
    · subst hed
      simp [hd, hne]
    · have hce : c ≠ e := fun heq => hec heq.symm
      have hde : d ≠ e := fun heq => hed heq.symm
      simp [hother e hec hed, hce, hde]
  exact congrArg (fun q => ({ s with queues := q } : Traffic χ φ)) hqueues

/-- Moves that leave every channel at most once can be made one after the other. -/
theorem commit_steps {toGo : χ → φ → ℕ} (hN : N.Shortens toGo) :
    ∀ {moves : List (χ × χ × Flit χ φ)} {s : Traffic χ φ}, (moves.map Prod.fst).Nodup →
      (∀ m ∈ moves, (s.queues m.1).head? = some m.2.2 ∧ N.next m.1 m.2.2.payload = some m.2.1) →
      ReflTransGen (Step N) s (s.commit moves)
  | [], s, _, _ => by
    have hsame : s.committed [] = s.queues := by
      funext c
      simp [committed]
    unfold commit
    rw [hsame]
  | (c, d, a) :: moves, s, hnodup, hmoves => by
    obtain ⟨hfirst, hrest⟩ := nodup_cons.mp hnodup
    obtain ⟨hhead, hnext⟩ := hmoves _ mem_cons_self
    have hne : c ≠ d := hN.ne_of_next hnext
    obtain ⟨rest, hqueue⟩ : ∃ rest, s.queues c = a :: rest :=
      head?_eq_some_iff.mp hhead
    rw [commit_cons hhead hfirst hne]
    refine .head (.hop hqueue hnext) (commit_steps hN hrest fun m hm => ?_)
    obtain ⟨hmhead, hmnext⟩ := hmoves m (mem_cons_of_mem _ hm)
    refine ⟨?_, hmnext⟩
    have hmc : m.1 ≠ c := by
      rintro rfl
      exact hfirst (mem_map.mpr ⟨m, hm, rfl⟩)
    obtain ⟨_, hd, hother⟩ := hop_queues hqueue hne
    by_cases hmd : m.1 = d
    · rw [hmd, hd, head?_append, ← hmd, hmhead]
      rfl
    · rw [hother _ hmc hmd]
      exact hmhead

end commit

end Traffic

end AgenticCircuit.FifoNetwork
