import AgenticCircuit.Lib.Ordered
import Mathlib.Data.List.MinMax
import Mathlib.Algebra.Order.Group.Nat
import Mathlib.Algebra.Order.BigOperators.Group.List

/-! # Amounts taken in the order of a key

Owners hold entries with amounts.  What is asked of an owner is taken from its entries in ascending
order of their keys: an entry gives nothing before the entries of the owner below it are empty, and
an empty entry goes.

`kept` is what one entry keeps, as a function of the collection in any order; `drain` is the
collection afterwards.  Below every key an owner holds less by what was asked for, as far as there
was so much (`below_drain`), and it does not matter how a demand is divided or ordered
(`drain_drain`). -/

namespace AgenticCircuit

open List

universe u v w

/-- Entries with an owner, a key and an amount that can be set. -/
structure Allotment (α : Type u) (ι : Type v) (κ : Type w) where
  owner : α → ι
  key : α → κ
  amount : α → ℕ
  setAmount : α → ℕ → α
  owner_setAmount : ∀ e n, owner (setAmount e n) = owner e
  key_setAmount : ∀ e n, key (setAmount e n) = key e
  amount_setAmount : ∀ e n, amount (setAmount e n) = n
  setAmount_setAmount : ∀ e m n, setAmount (setAmount e m) n = setAmount e n
  setAmount_amount : ∀ e, setAmount e (amount e) = e

namespace Allotment

variable {α : Type u} {ι : Type v} {κ : Type u} [DecidableEq ι] [LinearOrder κ]
variable (H : Allotment α ι κ) (l : List α) (n : ι → ℕ)

/-- What an owner holds below a key; below `⊤` is all it holds. -/
def below (o : ι) (k : WithTop κ) : ℕ :=
  ((l.filter fun e => H.owner e = o ∧ (H.key e : WithTop κ) < k).map H.amount).sum

/-- What an entry keeps of its amount. -/
def kept (e : α) : ℕ := H.amount e - (n (H.owner e) - H.below l (H.owner e) (H.key e))

/-- The entries after `n` has been taken from their owners. -/
def drain : List α :=
  l.filterMap fun e => if H.kept l n e = 0 then none else some (H.setAmount e (H.kept l n e))

/-- The keys of the entries are distinct. -/
def Distinct : Prop := (l.map H.key).Nodup

attribute [simp] owner_setAmount key_setAmount amount_setAmount setAmount_setAmount setAmount_amount

variable {H l n} {l' : List α} {m : ι → ℕ} {o : ι} {k : WithTop κ}

theorem below_perm (h : l.Perm l') : H.below l o k = H.below l' o k :=
  ((h.filter _).map _).sum_eq

theorem kept_perm (h : l.Perm l') : H.kept l n = H.kept l' n := by
  funext e
  rw [kept, kept, below_perm h]

theorem below_cons (e : α) : H.below (e :: l) o k =
      (if H.owner e = o ∧ (H.key e : WithTop κ) < k then H.amount e else 0) + H.below l o k := by
  unfold below
  by_cases h : H.owner e = o ∧ (H.key e : WithTop κ) < k
  · rw [filter_cons, decide_eq_true h, if_pos rfl, map_cons, sum_cons, if_pos h]
  · rw [filter_cons, decide_eq_false h, if_neg Bool.false_ne_true, if_neg h, Nat.zero_add]

theorem below_mono {k' : WithTop κ} (h : k ≤ k') : H.below l o k ≤ H.below l o k' := by
  refine List.Sublist.sum_le_sum (List.Sublist.map _ ?_) fun _ _ => Nat.zero_le _
  refine monotone_filter_right _ fun e he => ?_
  obtain ⟨howner, hlt⟩ := of_decide_eq_true he
  exact decide_eq_true ⟨howner, lt_of_lt_of_le hlt h⟩

theorem below_filter : H.below (l.filter fun e => H.owner e = o) o k = H.below l o k := by
  rw [below, filter_filter, below]
  refine congrArg (fun s => (List.map H.amount s).sum) (filter_congr fun e _ => ?_)
  rw [← Bool.decide_and]
  exact decide_eq_decide.2 ⟨And.left, fun h => ⟨h, h.1⟩⟩

/-! ### What the entries keep

By induction over the collection in ascending order, where an entry stands before those it gives
for. -/

/-- The keys ascend. -/
def Ascending (H : Allotment α ι κ) (l : List α) : Prop := l.Pairwise fun a b => H.key a < H.key b

omit [DecidableEq ι] in
theorem Distinct.ascending (h : H.Distinct l) : H.Ascending (insertAll H.key [] l) :=
  pairwise_lt_insertAll H.key h

variable {e : α}

/-- The first entry gives what is asked for. -/
theorem Ascending.kept_head (h : H.Ascending (e :: l)) :
    H.kept (e :: l) n e = H.amount e - n (H.owner e) := by
  have hnone : (e :: l).filter (fun x => H.owner x = H.owner e ∧
      (H.key x : WithTop κ) < H.key e) = [] := by
    refine filter_eq_nil_iff.2 fun x hx hin => ?_
    have hlt := WithTop.coe_lt_coe.1 (of_decide_eq_true hin).2
    rcases mem_cons.1 hx with rfl | hx
    · exact lt_irrefl _ hlt
    · exact lt_asymm hlt ((pairwise_cons.1 h).1 x hx)
  rw [kept, below, hnone, map_nil, sum_nil, Nat.sub_zero]

/-- What is still asked for after an entry has given. -/
def rest (H : Allotment α ι κ) (n : ι → ℕ) (e : α) : ι → ℕ :=
  fun o => if H.owner e = o then n o - H.amount e else n o

/-- The later entries give what is still asked for. -/
theorem Ascending.kept_tail {x : α} (h : H.Ascending (e :: l)) (hx : x ∈ l) :
    H.kept (e :: l) n x = H.kept l (H.rest n e) x := by
  have hlt : (H.key e : WithTop κ) < H.key x :=
    WithTop.coe_lt_coe.2 ((pairwise_cons.1 h).1 x hx)
  rw [kept, kept, below_cons, rest]
  by_cases howner : H.owner e = H.owner x
  · rw [if_pos ⟨howner, hlt⟩, if_pos howner]
    omega
  · rw [if_neg (fun hand => howner hand.1), if_neg howner, Nat.zero_add]

theorem Ascending.sum_kept (h : H.Ascending l) :
    ((l.filter fun e => H.owner e = o ∧ (H.key e : WithTop κ) < k).map (H.kept l n)).sum =
      H.below l o k - n o := by
  induction l generalizing n with
  | nil => simp [below]
  | cons e l ih =>
    have htail := (pairwise_cons.1 h).2
    have hrest : ((l.filter fun e => H.owner e = o ∧ (H.key e : WithTop κ) < k).map
        (H.kept (e :: l) n)).sum = H.below l o k - H.rest n e o := by
      rw [← ih htail]
      refine congrArg List.sum (map_congr_left fun x hx => ?_)
      exact h.kept_tail (mem_of_mem_filter hx)
    rw [below_cons]
    by_cases hin : H.owner e = o ∧ (H.key e : WithTop κ) < k
    · rw [filter_cons, decide_eq_true hin, if_pos rfl, map_cons, sum_cons, hrest,
        h.kept_head, if_pos hin, rest, if_pos hin.1, hin.1]
      omega
    rw [filter_cons, decide_eq_false hin, if_neg Bool.false_ne_true, hrest, if_neg hin,
      Nat.zero_add, rest]
    by_cases howner : H.owner e = o
    · -- the key of the entry is not below `k`, so none of the later keys is
      have hnone : H.below l o k = 0 := by
        rw [below, filter_eq_nil_iff.2, map_nil, sum_nil]
        intro x hx hand
        refine hin ⟨howner, lt_trans ?_ (of_decide_eq_true hand).2⟩
        exact WithTop.coe_lt_coe.2 ((pairwise_cons.1 h).1 x hx)
      rw [hnone, Nat.zero_sub, Nat.zero_sub]
    · rw [if_neg howner]

theorem Distinct.sum_kept (h : H.Distinct l) :
    ((l.filter fun e => H.owner e = o ∧ (H.key e : WithTop κ) < k).map (H.kept l n)).sum =
      H.below l o k - n o := by
  have hperm : l.Perm (insertAll H.key [] l) := (insertAll_perm H.key [] l).symm
  rw [kept_perm hperm, below_perm hperm, ← h.ascending.sum_kept]
  exact ((hperm.filter _).map _).sum_eq

/-! ### The collection afterwards -/

theorem mem_drain :
    e ∈ H.drain l n ↔ ∃ x ∈ l, H.kept l n x ≠ 0 ∧ e = H.setAmount x (H.kept l n x) := by
  rw [drain, mem_filterMap]
  refine exists_congr fun x => and_congr_right fun _ => ?_
  split
  · rename_i hzero
    simp [hzero]
  · rename_i hzero
    simp [hzero, eq_comm]

theorem drain_eq_filter :
    H.drain l n = (l.map fun e => H.setAmount e (H.kept l n e)).filter fun e => H.amount e ≠ 0 := by
  rw [drain, ← filterMap_eq_filter, filterMap_map]
  refine filterMap_congr fun e _ => ?_
  by_cases hzero : H.kept l n e = 0 <;> simp [Option.guard]

/-- The empty entries count for nothing. -/
theorem below_filterMap (f : α → ℕ) (s : List α) :
    H.below (s.filterMap fun e => if f e = 0 then none else some (H.setAmount e (f e))) o k =
      ((s.filter fun e => H.owner e = o ∧ (H.key e : WithTop κ) < k).map f).sum := by
  induction s with
  | nil => rfl
  | cons e s ih =>
    have hsum : (((e :: s).filter fun e => H.owner e = o ∧ (H.key e : WithTop κ) < k).map f).sum =
        (if H.owner e = o ∧ (H.key e : WithTop κ) < k then f e else 0) +
          ((s.filter fun e => H.owner e = o ∧ (H.key e : WithTop κ) < k).map f).sum := by
      by_cases hin : H.owner e = o ∧ (H.key e : WithTop κ) < k <;> simp [hin]
    rw [hsum, ← ih, filterMap_cons]
    by_cases hzero : f e = 0
    · simp [hzero]
    · simp [if_neg hzero, below_cons]

/-- **What an owner holds below a key afterwards.** -/
theorem Distinct.below_drain (h : H.Distinct l) :
    H.below (H.drain l n) o k = H.below l o k - n o := by
  rw [drain, below_filterMap, h.sum_kept]

theorem Distinct.drain (h : H.Distinct l) : H.Distinct (H.drain l n) := by
  have hkeys : (H.drain l n).map H.key =
      (l.filter fun e => H.kept l n e ≠ 0).map H.key := by
    rw [Allotment.drain, map_filterMap, ← filterMap_eq_filter, map_filterMap]
    refine filterMap_congr fun e _ => ?_
    by_cases hzero : H.kept l n e = 0 <;> simp [hzero]
  rw [Distinct, hkeys]
  exact h.sublist (filter_sublist.map _)

/-- What an entry keeps of two demands. -/
theorem Distinct.kept_kept (h : H.Distinct l) (e : α) :
    H.kept (H.drain l n) m (H.setAmount e (H.kept l n e)) = H.kept l (n + m) e := by
  rw [kept, owner_setAmount, key_setAmount, amount_setAmount, h.below_drain, kept, kept,
    Pi.add_apply]
  omega

/-- **Two demands are one.** -/
theorem Distinct.drain_drain (h : H.Distinct l) : H.drain (H.drain l n) m = H.drain l (n + m) := by
  rw [Allotment.drain, Allotment.drain, filterMap_filterMap, Allotment.drain]
  refine filterMap_congr fun e _ => ?_
  have hkept := h.kept_kept e (n := n) (m := m)
  rw [Allotment.drain] at hkept
  by_cases hzero : H.kept l n e = 0
  · have hboth : H.kept l (n + m) e = 0 := by
      rw [kept] at hzero ⊢
      rw [Pi.add_apply]
      omega
    rw [if_pos hzero, if_pos hboth]
    rfl
  · rw [if_neg hzero, Option.bind_some, hkept, setAmount_setAmount]

/-- A demand on one owner takes as much as the owner holds. -/
theorem Distinct.total_drain (h : H.Distinct l) (hn : ∀ o', o' ≠ o → n o' = 0) :
    ((H.drain l n).map H.amount).sum + min (n o) (H.below l o ⊤) = (l.map H.amount).sum := by
  have htop : ∀ e : α, (H.key e : WithTop κ) < ⊤ := fun e => WithTop.coe_lt_top _
  have hsplit (f : α → ℕ) : (l.map f).sum =
      ((l.filter fun e => H.owner e = o).map f).sum +
        ((l.filter fun e => !decide (H.owner e = o)).map f).sum := by
    have hperm := (filter_append_perm (fun e => decide (H.owner e = o)) l).map f
    rw [← hperm.sum_eq, map_append, sum_append]
  have hdrain : ((H.drain l n).map H.amount).sum = (l.map (H.kept l n)).sum := by
    rw [Allotment.drain]
    clear hsplit h
    generalize H.kept l n = f
    induction l with
    | nil => rfl
    | cons e l ih =>
      rw [filterMap_cons, map_cons, sum_cons, ← ih]
      by_cases hzero : f e = 0
      · simp [hzero]
      · simp [if_neg hzero]
  have hothers : (l.filter fun e => !decide (H.owner e = o)).map (H.kept l n) =
      (l.filter fun e => !decide (H.owner e = o)).map H.amount := by
    refine map_congr_left fun e he => ?_
    have hne : H.owner e ≠ o := by simpa using (mem_filter.1 he).2
    rw [kept, hn _ hne, Nat.zero_sub, Nat.sub_zero]
  have howner := h.sum_kept (n := n) (o := o) (k := ⊤)
  have hall : (l.filter fun e => H.owner e = o ∧ (H.key e : WithTop κ) < ⊤) =
      l.filter fun e => H.owner e = o :=
    filter_congr fun e _ => decide_eq_decide.2 (and_iff_left (htop e))
  rw [below, hall] at howner ⊢
  rw [hdrain, hsplit (H.kept l n), hsplit H.amount, hothers, howner]
  omega

/-- A demand of nothing. -/
theorem drain_zero (h : ∀ e ∈ l, H.amount e ≠ 0) : H.drain l 0 = l := by
  have hself : ∀ e ∈ l, (if H.kept l 0 e = 0 then none else some (H.setAmount e (H.kept l 0 e))) =
      some e := by
    intro e he
    have hkept : H.kept l 0 e = H.amount e := by
      rw [kept, Pi.zero_apply, Nat.zero_sub, Nat.sub_zero]
    rw [hkept, if_neg (h e he), setAmount_amount]
  rw [drain, filterMap_congr hself, filterMap_some]

/-! ### Entries that are to give nothing -/

/-- Before each entry of `g`, the entries of `l` hold what is asked for. -/
def Covers (H : Allotment α ι κ) (l : List α) (n : ι → ℕ) (g : List α) : Prop :=
  ∀ e ∈ g, n (H.owner e) ≤ H.below l (H.owner e) (H.key e)

variable {g : List α}

theorem below_append : H.below (g ++ l) o k = H.below g o k + H.below l o k := by
  unfold below
  rw [filter_append, map_append, sum_append]

theorem Covers.kept_new (h : H.Covers l n g) (he : e ∈ g) : H.kept (g ++ l) n e = H.amount e := by
  have hcover := h e he
  rw [kept, below_append]
  omega

/-- The other entries keep what they keep without them. -/
theorem Covers.kept_old (h : H.Covers l n g) (e : α) : H.kept (g ++ l) n e = H.kept l n e := by
  rw [kept, kept, below_append]
  by_cases hnone : (g.filter fun x => H.owner x = H.owner e ∧ (H.key x : WithTop κ) < H.key e) = []
  · have hzero : H.below g (H.owner e) (H.key e) = 0 := by
      rw [below, hnone]
      rfl
    rw [hzero, Nat.zero_add]
  · -- an entry of `g` below `e` is covered by what is below it, and so is `e`
    obtain ⟨x, hx⟩ := exists_mem_of_ne_nil _ hnone
    obtain ⟨hx, hlt⟩ := mem_filter.1 hx
    obtain ⟨howner, hlt⟩ := of_decide_eq_true hlt
    have hcover := h x hx
    rw [howner] at hcover
    have hmono : H.below l (H.owner e) (H.key x) ≤ H.below l (H.owner e) (H.key e) :=
      below_mono (le_of_lt hlt)
    omega

theorem covers_of_kept (h : ∀ e ∈ g, H.amount e ≠ 0 ∧ H.kept (g ++ l) n e = H.amount e) :
    H.Covers l n g := by
  intro e he
  have hin : e ∈ g.filter fun x => H.owner x = H.owner e :=
    mem_filter.2 ⟨he, decide_eq_true rfl⟩
  obtain ⟨first, hfirst⟩ : ∃ first, first ∈ (g.filter fun x => H.owner x = H.owner e).argmin H.key := by
    refine Option.ne_none_iff_exists'.1 fun hnone => ?_
    rw [argmin_eq_none] at hnone
    exact not_mem_nil (hnone ▸ hin)
  obtain ⟨hg, howner⟩ := mem_filter.1 (argmin_mem hfirst)
  have howner : H.owner first = H.owner e := of_decide_eq_true howner
  -- nothing of `g` is below the first entry of the owner
  have hnone : H.below g (H.owner e) (H.key first) = 0 := by
    rw [below, filter_eq_nil_iff.2, map_nil, sum_nil]
    intro x hx hand
    obtain ⟨hxo, hlt⟩ := of_decide_eq_true hand
    have hle := le_of_mem_argmin (mem_filter.2 ⟨hx, decide_eq_true hxo⟩) hfirst
    exact absurd (WithTop.coe_lt_coe.1 hlt) (not_lt.2 hle)
  obtain ⟨hpos, hkept⟩ := h first hg
  rw [kept, below_append, howner, hnone, Nat.zero_add] at hkept
  have hmono : H.below l (H.owner e) (H.key first) ≤ H.below l (H.owner e) (H.key e) :=
    below_mono (WithTop.coe_le_coe.2 (le_of_mem_argmin hin hfirst))
  omega

end Allotment

end AgenticCircuit
