import AgenticCircuit.Gfsim.Components
import Mathlib.Data.List.AList
import Mathlib.Data.List.Induction

/-! # Writes of a memory

`Memory<T>` of `components.h`: the storage, and the `std::map` of the writes of the epoch, which
has one entry for each address.

* **Proposals.**  A write replaces the proposal of its address.
* **Order of the calls.**  The storage after Xfer does not depend on it exactly when no address
  is written with two values (`storage_independent_iff`). -/

namespace AgenticCircuit.Gfsim

open List

/-- A memory with its storage. -/
structure MemoryStorage (α : Type) where
  storage : List α
  writeProposals : AList fun _ : ℕ => α := ∅
  totalWrites : ℕ := 0
  lastUpdate : Epoch := ⟨0, 0⟩

namespace MemoryStorage

variable {α : Type}

/-- `proposeWrite`: whether the write is accepted, and the memory after it. -/
def proposeWrite (addr : ℕ) (value : α) (m : MemoryStorage α) : Bool × MemoryStorage α :=
  if m.storage.length ≤ addr then (false, m)
  else (true, { m with writeProposals := m.writeProposals.insert addr value })

def doXfer (epoch : Epoch) (m : MemoryStorage α) : MemoryStorage α :=
  let committedWrites := m.writeProposals.entries.length
  { storage := m.writeProposals.foldl set m.storage
    writeProposals := ∅
    totalWrites := m.totalWrites + committedWrites
    lastUpdate := if committedWrites ≠ 0 then epoch else m.lastUpdate }

/-- The memory after the calls of an epoch. -/
def writes (m : MemoryStorage α) (calls : List (ℕ × α)) : MemoryStorage α :=
  calls.foldl (fun m call => (m.proposeWrite call.1 call.2).2) m

/-- Every call is accepted. -/
def Accepted (m : MemoryStorage α) (calls : List (ℕ × α)) : Prop :=
  ∀ call ∈ calls, call.1 < m.storage.length

/-- No address is written with two values. -/
def SingleValued (calls : List (ℕ × α)) : Prop :=
  ∀ addr v w, (addr, v) ∈ calls → (addr, w) ∈ calls → v = w

variable {m : MemoryStorage α} {calls calls' : List (ℕ × α)} {i : ℕ}

/-! ### What is committed -/

theorem getElem?_foldl_set {map : List (Σ _ : ℕ, α)} (h : map.NodupKeys) {storage : List α}
    (hi : i < storage.length) :
    (map.foldl (fun storage write => storage.set write.1 write.2) storage)[i]? =
      (map.dlookup i).or storage[i]? := by
  induction map generalizing storage with
  | nil => rfl
  | cons write rest ih =>
    obtain ⟨hhead, hrest⟩ := nodupKeys_cons.mp h
    rw [foldl_cons, ih hrest (by rwa [length_set])]
    by_cases hwrite : i = write.1
    · -- no later entry has the address of this one
      subst hwrite
      rw [dlookup_eq_none.mpr hhead, getElem?_set_self hi]
      cases write
      simp
    · rw [getElem?_set_ne (Ne.symm hwrite), dlookup_cons_ne _ _ hwrite]

theorem getElem?_doXfer (epoch : Epoch) (hi : i < m.storage.length) :
    (m.doXfer epoch).storage[i]? = (m.writeProposals.lookup i).or m.storage[i]? :=
  getElem?_foldl_set m.writeProposals.nodupKeys hi

theorem length_doXfer (epoch : Epoch) : (m.doXfer epoch).storage.length = m.storage.length := by
  have hfoldl : ∀ (map : List (Σ _ : ℕ, α)) (storage : List α),
      (map.foldl (fun storage write => storage.set write.1 write.2) storage).length =
        storage.length := by
    intro map
    induction map with
    | nil => exact fun _ => rfl
    | cons write rest ih => exact fun storage => (ih _).trans length_set
  exact hfoldl _ _

theorem storage_writes : (m.writes calls).storage = m.storage := by
  induction calls generalizing m with
  | nil => rfl
  | cons call rest ih =>
    refine (ih (m := (m.proposeWrite call.1 call.2).2)).trans ?_
    rw [proposeWrite]
    split <;> rfl

theorem lookup_writes_append {call : ℕ × α} (h : call.1 < m.storage.length) (addr : ℕ) :
    (m.writes (calls ++ [call])).writeProposals.lookup addr =
      if addr = call.1 then some call.2 else (m.writes calls).writeProposals.lookup addr := by
  have hwrites : m.writes (calls ++ [call]) =
      ((m.writes calls).proposeWrite call.1 call.2).2 := by simp [writes]
  rw [hwrites, proposeWrite, storage_writes, if_neg (by omega)]
  split
  · next haddr => rw [haddr, AList.lookup_insert]
  · next haddr => rw [AList.lookup_insert_ne haddr]

theorem lookup_writes (h : m.Accepted calls) (addr : ℕ) :
    (∃ v, (addr, v) ∈ calls ∧ (m.writes calls).writeProposals.lookup addr = some v) ∨
      (∀ v, (addr, v) ∉ calls) ∧
        (m.writes calls).writeProposals.lookup addr = m.writeProposals.lookup addr := by
  induction calls using reverseRec with
  | nil => exact .inr ⟨fun _ => not_mem_nil, rfl⟩
  | append_singleton calls call ih =>
    rw [lookup_writes_append (h call (by simp))]
    by_cases haddr : addr = call.1
    · exact .inl ⟨call.2, by simp [haddr], if_pos haddr⟩
    · rw [if_neg haddr]
      refine (ih fun other hother => h other (mem_append_left _ hother)).imp ?_ ?_
      · rintro ⟨v, hv, hlookup⟩
        exact ⟨v, mem_append_left _ hv, hlookup⟩
      · rintro ⟨hnone, hlookup⟩
        refine ⟨fun v hv => ?_, hlookup⟩
        obtain hv | hv := mem_append.mp hv
        · exact hnone v hv
        · exact haddr (congrArg Prod.fst (mem_singleton.mp hv))

/-! ### The order of the calls -/

theorem Accepted.perm (h : m.Accepted calls) (hperm : calls.Perm calls') : m.Accepted calls' :=
  fun call hcall => h call (hperm.mem_iff.mpr hcall)

theorem SingleValued.lookup_eq (h : SingleValued calls) (haccepted : m.Accepted calls)
    (hperm : calls.Perm calls') (addr : ℕ) :
    (m.writes calls').writeProposals.lookup addr = (m.writes calls).writeProposals.lookup addr := by
  obtain ⟨v, hv, hlookup⟩ | ⟨hnone, hlookup⟩ := lookup_writes haccepted addr <;>
    obtain ⟨w, hw, hlookup'⟩ | ⟨hnone', hlookup'⟩ := lookup_writes (haccepted.perm hperm) addr
  · rw [hlookup, hlookup', h addr v w hv (hperm.mem_iff.mpr hw)]
  · exact absurd (hperm.mem_iff.mp hv) (hnone' v)
  · exact absurd (hperm.mem_iff.mpr hw) (hnone w)
  · rw [hlookup, hlookup']

/-- The storage after Xfer is the same for every order of the accepted calls of an epoch exactly
when no address is written with two values. -/
theorem storage_independent_iff (m : MemoryStorage α) (calls : List (ℕ × α))
    (haccepted : m.Accepted calls) (epoch : Epoch) :
    (∀ calls', calls.Perm calls' →
      ((m.writes calls').doXfer epoch).storage = ((m.writes calls).doXfer epoch).storage) ↔
      SingleValued calls := by
  constructor
  · intro hsame addr v w hv hw
    have haddr : addr < m.storage.length := haccepted _ hv
    -- the call that is made last is the one that is committed
    have hlast : ∀ u, (addr, u) ∈ calls →
        ((m.writes calls).doXfer epoch).storage[addr]? = some u := by
      intro u hu
      obtain ⟨before, after, hsplit⟩ := append_of_mem hu
      have hperm : calls.Perm (before ++ after ++ [(addr, u)]) := by
        rw [hsplit, append_assoc]
        exact (perm_append_singleton _ after).symm.append_left before
      rw [← hsame _ hperm, getElem?_doXfer epoch (by rwa [storage_writes]),
        lookup_writes_append haddr, if_pos rfl]
      rfl
    exact Option.some.inj ((hlast v hv).symm.trans (hlast w hw))
  · intro hsingle calls' hperm
    refine ext_getElem? fun i => ?_
    by_cases hi : i < m.storage.length
    · rw [getElem?_doXfer epoch (by rwa [storage_writes]),
        getElem?_doXfer epoch (by rwa [storage_writes]), hsingle.lookup_eq haccepted hperm,
        storage_writes, storage_writes]
    · have hbeyond : ∀ calls : List (ℕ × α),
          ((m.writes calls).doXfer epoch).storage[i]? = none := fun calls => by
        rw [getElem?_eq_none]
        rw [length_doXfer, storage_writes]
        omega
      rw [hbeyond, hbeyond]

/-- Three calls in another order: a cell is written, another one twice with one value. -/
theorem storage_independent_cells :
    ((({ storage := [0, 0] } : MemoryStorage ℕ).writes [(1, 2), (0, 1), (1, 2)]).doXfer
      ⟨0, 0⟩).storage = [1, 2] := by
  have hsingle : SingleValued [((0 : ℕ), 1), (1, 2), (1, 2)] := by
    intro addr v w hv hw
    simp only [mem_cons, Prod.mk.injEq, not_mem_nil, or_false] at hv hw
    omega
  exact ((storage_independent_iff { storage := [0, 0] } [(0, 1), (1, 2), (1, 2)]
    (by simp [Accepted]) ⟨0, 0⟩).mpr hsingle _ (Perm.swap _ _ _)).trans (by decide)

/-- Two writes to the only cell: the last call is committed. -/
theorem last_write_wins : ¬ ∀ (m : MemoryStorage ℕ) (calls calls' : List (ℕ × ℕ)),
    m.Accepted calls → calls.Perm calls' → ((m.writes calls').doXfer ⟨0, 0⟩).storage =
      ((m.writes calls).doXfer ⟨0, 0⟩).storage := by
  intro h
  exact absurd (h { storage := [0] } [(0, 1), (0, 2)] [(0, 2), (0, 1)] (by simp [Accepted])
    (Perm.swap _ _ _)) (by decide)

end MemoryStorage

end AgenticCircuit.Gfsim
