import Mathlib.Algebra.Group.Action.Defs
import Mathlib.Algebra.Order.BigOperators.Group.Finset

/-! # Live names of a graph

The nodes of a graph use and define names.  A name is live at a node when it is used there, or is not
defined there and is live at a target.  The live names are computed in passes over the nodes: each visit
computes the names of a node from those of its targets, in place, and the passes end when one of them
changes nothing.

The computed names only grow and stay among the live names, so after as many passes as there are pairs
of a node and a name the names are complete (`liveIn_spec`). -/

namespace AgenticCircuit.Liveness

open Function Finset List

variable {ν α : Type*} [DecidableEq ν] [DecidableEq α]

/-- The nodes are listed in the order of a pass. -/
structure Graph (ν α : Type*) where
  nodes : List ν
  targets : ν → List ν
  uses : ν → Finset α
  defs : ν → Finset α

variable (g : Graph ν α)

/-- What a node leaves over of the names of its targets, and what it uses. -/
def transfer (live : ν → Finset α) (n : ν) : Finset α :=
  g.uses n ∪ (((g.targets n).toFinset.biUnion live) \ g.defs n)

/-- A visit of a node, with the flag of the pass. -/
def visit (s : (ν → Finset α) × Bool) (n : ν) : (ν → Finset α) × Bool :=
  if transfer g s.1 n ≠ s.1 n then (update s.1 n (transfer g s.1 n), true) else s

def pass (live : ν → Finset α) : (ν → Finset α) × Bool := g.nodes.foldl (visit g) (live, false)

/-- Passes until one changes nothing; `budget` bounds their number. -/
def passes : ℕ → (ν → Finset α) → Option (ν → Finset α)
  | 0, _ => none
  | budget + 1, live =>
    if (pass g live).2 then passes budget (pass g live).1 else some (pass g live).1

def liveIn (budget : ℕ) : Option (ν → Finset α) := passes g budget fun _ => ∅

/-! ### What is live -/

inductive Live (x : α) : ν → Prop
  | use {n : ν} : x ∈ g.uses n → Live x n
  | through {n t : ν} : x ∉ g.defs n → t ∈ g.targets n → Live x t → Live x n

variable {g} {x : α} {n : ν} {live live' : ν → Finset α}

theorem mem_transfer : x ∈ transfer g live n ↔
    x ∈ g.uses n ∨ x ∉ g.defs n ∧ ∃ t ∈ g.targets n, x ∈ live t := by
  simp only [transfer, mem_union, mem_sdiff, mem_biUnion, mem_toFinset]
  rw [and_comm]

theorem transfer_mono (h : ∀ m, live m ⊆ live' m) (n : ν) :
    transfer g live n ⊆ transfer g live' n := by
  intro x hx
  rw [mem_transfer] at hx ⊢
  rcases hx with hx | ⟨hdef, t, ht, hx⟩
  · exact .inl hx
  · exact .inr ⟨hdef, t, ht, h t hx⟩

/-- Names are computed that are live, and no more than the targets account for. -/
structure Sound (g : Graph ν α) (live : ν → Finset α) : Prop where
  holds : ∀ n, ∀ x ∈ live n, Live g x n
  accounted : ∀ n, live n ⊆ transfer g live n

theorem Sound.empty : Sound g fun _ => ∅ := ⟨by simp, by simp⟩

theorem Sound.live_transfer (h : Sound g live) (hx : x ∈ transfer g live n) : Live g x n := by
  rcases mem_transfer.1 hx with hx | ⟨hdef, t, ht, hx⟩
  · exact .use hx
  · exact .through hdef ht (h.holds t x hx)

theorem subset_update (h : Sound g live) (m : ν) :
    live m ⊆ update live n (transfer g live n) m := by
  rcases eq_or_ne m n with rfl | hne
  · rw [update_self]
    exact h.accounted m
  · rw [update_of_ne hne]

theorem Sound.update (h : Sound g live) (n : ν) : Sound g (update live n (transfer g live n)) where
  holds m x hx := by
    rcases eq_or_ne m n with rfl | hne
    · rw [update_self] at hx
      exact h.live_transfer hx
    · rw [update_of_ne hne] at hx
      exact h.holds m x hx
  accounted m := by
    have hmono := transfer_mono (g := g) (subset_update h (n := n)) m
    rcases eq_or_ne m n with rfl | hne
    · rw [update_self]
      exact hmono
    · rw [update_of_ne hne]
      exact (h.accounted m).trans hmono

/-! ### Progress -/

/-- The number of computed pairs of a node and a name. -/
def size (g : Graph ν α) (live : ν → Finset α) : ℕ := ∑ n ∈ g.nodes.toFinset, (live n).card

theorem size_lt_update (h : Sound g live) (hn : n ∈ g.nodes) (hne : transfer g live n ≠ live n) :
    size g live < size g (update live n (transfer g live n)) := by
  refine sum_lt_sum (fun m _ => card_le_card (subset_update h m))
    ⟨n, mem_toFinset.2 hn, ?_⟩
  rw [update_self]
  exact card_lt_card ((h.accounted n).ssubset_of_ne hne.symm)

/-- A run of visits keeps the names sound; it changes nothing where no visit has anything to add, and
adds a pair otherwise. -/
theorem foldl_visit (ns : List ν) (hns : ∀ n ∈ ns, n ∈ g.nodes) (h : Sound g live)
    (changed : Bool) : Sound g (ns.foldl (visit g) (live, changed)).1 ∧
      ((ns.foldl (visit g) (live, changed) = (live, changed) ∧ ∀ n ∈ ns, transfer g live n = live n) ∨
        ((ns.foldl (visit g) (live, changed)).2 = true ∧
          size g live < size g (ns.foldl (visit g) (live, changed)).1)) := by
  induction ns generalizing live changed with
  | nil => exact ⟨h, .inl ⟨rfl, by simp⟩⟩
  | cons n ns ih =>
    obtain ⟨hn, hns⟩ := forall_mem_cons.1 hns
    rw [foldl_cons]
    by_cases hstable : transfer g live n = live n
    · have hvisit : visit g (live, changed) n = (live, changed) := if_neg (by simp [hstable])
      rw [hvisit]
      obtain ⟨hsound, hrest⟩ := ih hns h changed
      refine ⟨hsound, hrest.imp_left fun hsame => ⟨hsame.1, forall_mem_cons.2 ⟨hstable, hsame.2⟩⟩⟩
    · have hvisit : visit g (live, changed) n = (update live n (transfer g live n), true) :=
        if_pos hstable
      rw [hvisit]
      have hlt := size_lt_update h hn hstable
      obtain ⟨hsound, hrest⟩ := ih hns (h.update n) true
      refine ⟨hsound, .inr ?_⟩
      rcases hrest with ⟨hsame, -⟩ | ⟨hflag, hmore⟩
      · rw [hsame]
        exact ⟨rfl, hlt⟩
      · exact ⟨hflag, hlt.trans hmore⟩

variable {budget : ℕ}

/-- Where the passes have ended no visit has anything to add. -/
theorem passes_stable {result : ν → Finset α} (h : Sound g live)
    (hpasses : passes g budget live = some result) :
    ∀ n ∈ g.nodes, transfer g result n = result n := by
  induction budget generalizing live with
  | zero => cases hpasses
  | succ budget ih =>
    obtain ⟨hsound, hrest⟩ := foldl_visit g.nodes (fun _ hn => hn) h false
    rw [passes] at hpasses
    split at hpasses
    · exact ih hsound hpasses
    · rename_i hflag
      obtain ⟨hsame, hstable⟩ := hrest.resolve_right fun hmore => hflag hmore.1
      have heq : (pass g live).1 = live := congrArg Prod.fst hsame
      rw [← Option.some.inj hpasses, heq]
      exact hstable

section

variable (hclosed : ∀ n ∈ g.nodes, ∀ t ∈ g.targets n, t ∈ g.nodes)

include hclosed

/-- When no visit has anything to add, the names are complete. -/
theorem mem_of_live (hstable : ∀ n ∈ g.nodes, transfer g live n = live n) (h : Live g x n)
    (hn : n ∈ g.nodes) : x ∈ live n := by
  induction h with
  | @use n hx =>
    rw [← hstable n hn]
    exact mem_transfer.2 (.inl hx)
  | @through n t hdef ht _ ih =>
    rw [← hstable n hn]
    exact mem_transfer.2 (.inr ⟨hdef, t, ht, ih (hclosed n hn t ht)⟩)

/-- The names that are used somewhere. -/
def names (g : Graph ν α) : Finset α := g.nodes.toFinset.biUnion g.uses

theorem mem_names_of_live (h : Live g x n) (hn : n ∈ g.nodes) : x ∈ names g := by
  induction h with
  | @use n hx => exact mem_biUnion.2 ⟨n, mem_toFinset.2 hn, hx⟩
  | @through n t _ ht _ ih => exact ih (hclosed n hn t ht)

theorem size_le (h : Sound g live) : size g live ≤ g.nodes.length * (names g).card := by
  refine (sum_le_card_nsmul _ _ (names g).card fun n hn => ?_).trans ?_
  · refine card_le_card fun x hx => ?_
    exact mem_names_of_live hclosed (h.holds n x hx) (mem_toFinset.1 hn)
  · rw [smul_eq_mul]
    exact Nat.mul_le_mul_right _ g.nodes.toFinset_card_le

theorem passes_spec (h : Sound g live)
    (hbudget : g.nodes.length * (names g).card < budget + size g live) :
    ∃ result, passes g budget live = some result ∧ Sound g result ∧
      ∀ n ∈ g.nodes, transfer g result n = result n := by
  induction budget generalizing live with
  | zero =>
    have hle := size_le hclosed h
    omega
  | succ budget ih =>
    obtain ⟨hsound, hrest⟩ := foldl_visit g.nodes (fun _ hn => hn) h false
    change Sound g (pass g live).1 at hsound
    rw [passes]
    rcases hrest with ⟨hsame, hstable⟩ | ⟨hflag, hlt⟩
    · have hpass : pass g live = (live, false) := hsame
      rw [hpass]
      exact ⟨live, rfl, h, hstable⟩
    · change (pass g live).2 = true at hflag
      change size g live < size g (pass g live).1 at hlt
      rw [if_pos hflag]
      exact ih hsound (by omega)

/-- **Live names.**  With a budget for all pairs of a node and a name, the passes end and have found
exactly the live names. -/
theorem liveIn_spec (hbudget : g.nodes.length * (names g).card < budget) :
    ∃ live, liveIn g budget = some live ∧ ∀ n ∈ g.nodes, ∀ x, x ∈ live n ↔ Live g x n := by
  obtain ⟨live, hlive, hsound, hstable⟩ := passes_spec hclosed Sound.empty (Nat.lt_add_right _ hbudget)
  exact ⟨live, hlive, fun n hn x => ⟨hsound.holds n x, fun h => mem_of_live hclosed hstable h hn⟩⟩

end

end AgenticCircuit.Liveness
