import AgenticCircuit.Tools.PerfettoTrace

/-! # Lines of a text

A text of scalar values is decoded from its bytes, and `splitlines` cuts it at every line break: as
often as there are line breaks, and at the ends of the lines alone where a line has none. -/

namespace AgenticCircuit.Tools

open List
open Bindings Frontend

/-! ### UTF-8 -/

variable {n : ℕ} {c : CodePoint} {text : PythonString} {texts : List PythonString}

theorem toNat_ofNat (h : n < 0x100) : (UInt8.ofNat n).toNat = n := Nat.mod_eq_of_lt h

theorem continuation_ofNat {low high : ℕ} (hlow : low ≤ n % 0x40 + 0x80)
    (hhigh : n % 0x40 + 0x80 ≤ high) :
    continuation low high (UInt8.ofNat (n % 0x40 + 0x80)) = some (n % 0x40) := by
  rw [continuation, toNat_ofNat (by omega), if_pos ⟨hlow, hhigh⟩]
  congr 1
  omega

theorem ofNat_codePoint (h : n = c.val) : Fin.ofNat 0x110000 n = c :=
  Fin.ext (by rw [h]; exact Nat.mod_eq_of_lt c.isLt)

theorem decodeFirst_encode (h : IsScalar c) (rest : Bytes) :
    decodeFirst (Bindings.encodeUtf8 c.val ++ rest) = some (c, rest) := by
  have hrange := isScalar_range h
  have hlt := c.isLt
  rw [encodeUtf8_eq h]
  split_ifs with hone htwo hthree
  · rw [singleton_append, decodeFirst.eq_def]
    simp only [toNat_ofNat (show c.val < 0x100 by omega)]
    rw [if_pos (by omega), ofNat_codePoint rfl]
  · simp only [cons_append, nil_append]
    rw [decodeFirst]
    simp only [toNat_ofNat (show c.val / 64 % 0x20 + 0xc0 < 0x100 by omega)]
    rw [if_neg (by omega), if_pos (by omega), continuation_ofNat (by omega) (by omega)]
    simp only [bind, Option.bind, pure]
    rw [ofNat_codePoint (c := c) (by omega)]
  · simp only [cons_append, nil_append]
    rw [decodeFirst]
    simp only [toNat_ofNat (show c.val / 4096 % 0x10 + 0xe0 < 0x100 by omega)]
    rw [if_neg (by omega), if_neg (by omega), if_pos (by omega),
      continuation_ofNat (by split_ifs <;> omega) (by split_ifs <;> omega),
      continuation_ofNat (by omega) (by omega)]
    simp only [bind, Option.bind, pure]
    rw [ofNat_codePoint (c := c) (by omega)]
  · simp only [cons_append, nil_append]
    rw [decodeFirst]
    simp only [toNat_ofNat (show c.val / 262144 % 0x08 + 0xf0 < 0x100 by omega)]
    rw [if_neg (by omega), if_neg (by omega), if_neg (by omega), if_pos (by omega),
      continuation_ofNat (by split_ifs <;> omega) (by split_ifs <;> omega),
      continuation_ofNat (by omega) (by omega), continuation_ofNat (by omega) (by omega)]
    simp only [bind, Option.bind, pure]
    rw [ofNat_codePoint (c := c) (by omega)]

theorem encodeUtf8_cons (h : IsScalar c) :
    ∃ first rest, Bindings.encodeUtf8 c.val = first :: rest := by
  rw [encodeUtf8_eq h]
  split_ifs <;> exact ⟨_, _, rfl⟩

theorem decodeUtf8From_scalar (h : Scalar text) {fuel : ℕ} (hfuel : text.length ≤ fuel)
    (start : ℕ) : decodeUtf8From fuel start (bytesOf text) = .ok text := by
  induction text generalizing fuel start with
  | nil => rw [bytesOf_nil, decodeUtf8From]
  | cons c text ih =>
    obtain ⟨fuel, rfl⟩ : ∃ n, fuel = n + 1 := ⟨fuel - 1, by simp at hfuel; omega⟩
    have hc := h c (mem_cons_self ..)
    have hfirst := decodeFirst_encode hc (bytesOf text)
    obtain ⟨first, rest, hbytes⟩ := encodeUtf8_cons hc
    rw [bytesOf_cons]
    rw [hbytes, cons_append] at hfirst ⊢
    rw [decodeUtf8From, hfirst]
    simp only []
    rw [ih (fun c hc => h c (mem_cons_of_mem _ hc)) (by simpa using hfuel)]
    rfl

theorem decodeUtf8_scalar (h : Scalar text) : decodeUtf8 (bytesOf text) = .ok text :=
  decodeUtf8From_scalar h (bytesOf_length text h) 0

/-! ### Lines -/

theorem lineFeed_lt : 0x0a < 0x110000 := by decide

/-- The end of a line that `canonicalEvents` writes. -/
def lineFeed : CodePoint := ⟨0x0a, lineFeed_lt⟩

theorem splitLinesFrom_cons {line rest : PythonString} (h : c.val ≠ 0x0d) :
    splitLinesFrom line (c :: rest) =
      if isLineBreak c then line :: splitLinesFrom [] rest else splitLinesFrom (line ++ [c]) rest := by
  cases rest with
  | nil =>
    have hone : splitLinesFrom line [c] = if isLineBreak c then [line] else [line ++ [c]] := by
      rw [splitLinesFrom]
    have hempty : splitLinesFrom [] [] = [] := by rw [splitLinesFrom, if_pos rfl]
    have hline : splitLinesFrom (line ++ [c]) [] = [line ++ [c]] := by
      rw [splitLinesFrom, if_neg (by simp)]
    rw [hone, hempty, hline]
  | cons d rest =>
    rw [splitLinesFrom, if_neg fun hpair => h hpair.1]

theorem splitLinesFrom_line (h : ∀ c ∈ text, isLineBreak c = false) (line rest : PythonString) :
    splitLinesFrom line (text ++ lineFeed :: rest) = (line ++ text) :: splitLinesFrom [] rest := by
  induction text generalizing line with
  | nil =>
    rw [nil_append, splitLinesFrom_cons (by decide), if_pos (by decide), List.append_nil]
  | cons c text ih =>
    rw [forall_mem_cons] at h
    have hreturn : c.val ≠ 0x0d := by
      intro heq
      have := h.1
      simp [isLineBreak, heq] at this
    rw [cons_append, splitLinesFrom_cons hreturn, if_neg (by rw [h.1]; decide), ih h.2,
      List.append_assoc, singleton_append]

theorem splitLines_lines (h : ∀ text ∈ texts, ∀ c ∈ text, isLineBreak c = false) :
    splitLines (texts.flatMap fun text => text ++ [lineFeed]) = texts := by
  induction texts with
  | nil => rfl
  | cons text texts ih =>
    rw [forall_mem_cons] at h
    have hrest := ih h.2
    rw [splitLines] at hrest ⊢
    rw [flatMap_cons, List.append_assoc, singleton_append,
      splitLinesFrom_line h.1, hrest, nil_append]

theorem length_splitLinesFrom (h : ∀ c ∈ text, c.val ≠ 0x0d) (line : PythonString) :
    text.countP isLineBreak ≤ (splitLinesFrom line text).length := by
  induction text generalizing line with
  | nil => simp
  | cons c text ih =>
    rw [forall_mem_cons] at h
    rw [splitLinesFrom_cons h.1, countP_cons]
    split_ifs with hbreak
    · have := ih h.2 []
      rw [length_cons]
      omega
    · exact ih h.2 _

theorem countP_lines (texts : List PythonString) :
    (texts.flatMap fun text => text ++ [lineFeed]).countP isLineBreak =
      texts.length + (texts.flatMap id).countP isLineBreak := by
  induction texts with
  | nil => rfl
  | cons text texts ih =>
    have hfeed : [lineFeed].countP isLineBreak = 1 := by decide
    rw [flatMap_cons, countP_append, countP_append, ih, hfeed, flatMap_cons,
      countP_append, length_cons]
    simp only [id_eq]
    omega

theorem length_splitLines (hreturn : ∀ text ∈ texts, ∀ c ∈ text, c.val ≠ 0x0d)
    (htext : text ∈ texts) (hc : c ∈ text) (hbreak : isLineBreak c = true) :
    texts.length < (splitLines (texts.flatMap fun text => text ++ [lineFeed])).length := by
  have hreturn' : ∀ c ∈ texts.flatMap (fun text => text ++ [lineFeed]), c.val ≠ 0x0d := by
    intro c hc
    obtain ⟨text, htext, hmem⟩ := mem_flatMap.1 hc
    rcases mem_append.1 hmem with hmem | hmem
    · exact hreturn text htext c hmem
    · rw [mem_singleton.1 hmem]
      decide
  have hle := length_splitLinesFrom hreturn' []
  have hpos : 0 < (texts.flatMap id).countP isLineBreak :=
    countP_pos_iff.2 ⟨c, mem_flatMap.2 ⟨text, htext, hc⟩, hbreak⟩
  rw [countP_lines] at hle
  exact lt_of_lt_of_le (by omega) hle

end AgenticCircuit.Tools
