import Mathlib.Data.List.Basic
import Mathlib.Tactic.Common

/-!
# Numbers, separators and literals in text

Keys are texts glued from parts. Two facts make such a key readable again: a
decimal numeral determines its number (`pad_inj`, `decimal_inj`), and a text
splits uniquely at a separator that the part before it does not contain
(`append_sep_inj`, and `append_sep_inj'` from the right).

- numerals: `pad` with zeros in front, `decimal` with a sign. The digits are read
  back by `Nat.ofDigitChars`, so equal numerals are of equal numbers;
- separators: by induction on the two lists up to the first separator, and from
  the right by reversing both;
- `literal` is a text between quotes, with escapes for what cannot be printed.
-/

namespace Text

/-- The decimal numeral of `n`, padded with zeros to at least `width` digits. -/
def pad (width n : Nat) : String :=
  String.ofList (List.replicate (width - n.repr.toList.length) '0') ++ n.repr

/-- The decimal numeral of an integer. -/
def decimal (n : Int) : String :=
  if n < 0 then "-" ++ n.natAbs.repr else n.natAbs.repr

/-- Whitespace: control separators, blanks and the spaces of Unicode. -/
def isSpace (c : Char) : Bool :=
  let n := c.toNat
  (9 ≤ n ∧ n ≤ 13) ∨ (28 ≤ n ∧ n ≤ 32) ∨ n = 0x85 ∨ n = 0xa0 ∨ n = 0x1680 ∨
    (0x2000 ≤ n ∧ n ≤ 0x200a) ∨ n = 0x2028 ∨ n = 0x2029 ∨ n = 0x202f ∨ n = 0x205f ∨ n = 0x3000

/-- A text without the whitespace at its ends. -/
def strip (text : String) : String :=
  String.ofList (((text.toList.dropWhile isSpace).reverse.dropWhile isSpace).reverse)

/-! ## Literals

How `repr` writes a text. Quoting is chosen for the whole text, escaping for
each character. -/

def apostrophe : Char := Char.ofNat 39

def quotationMark : Char := Char.ofNat 34

def backslash : Char := Char.ofNat 92

/-- The code points that are written as escapes: controls, separators other than
the blank, formats and private use. Which code points have no character at all
changes with every version of Unicode; they are not in the list. -/
def unprintable : List (Nat × Nat) :=
  [(0x0, 0x1f), (0x7f, 0xa0), (0xad, 0xad), (0x600, 0x605), (0x61c, 0x61c), (0x6dd, 0x6dd),
    (0x70f, 0x70f), (0x890, 0x891), (0x8e2, 0x8e2), (0x1680, 0x1680), (0x180e, 0x180e),
    (0x2000, 0x200f), (0x2028, 0x202f), (0x205f, 0x2064), (0x2066, 0x206f), (0x3000, 0x3000),
    (0xe000, 0xf8ff), (0xfeff, 0xfeff), (0xfff9, 0xfffb), (0x110bd, 0x110bd), (0x110cd, 0x110cd),
    (0x13430, 0x1343f), (0x1bca0, 0x1bca3), (0x1d173, 0x1d17a), (0xe0001, 0xe0001),
    (0xe0020, 0xe007f), (0xf0000, 0xffffd), (0x100000, 0x10fffd)]

def isPrintable (c : Char) : Bool :=
  unprintable.all fun range => c.toNat < range.1 ∨ range.2 < c.toNat

/-- The hexadecimal numeral of `n`, padded with zeros to at least `width` digits. -/
def hex (width n : Nat) : List Char :=
  let digits := Nat.toDigits 16 n
  List.replicate (width - digits.length) '0' ++ digits

/-- A character as it stands in a literal between `quote`s. -/
def escaped (quote c : Char) : List Char :=
  if c = quote ∨ c = backslash then [backslash, c]
  else if c = Char.ofNat 9 then [backslash, 't']
  else if c = Char.ofNat 10 then [backslash, 'n']
  else if c = Char.ofNat 13 then [backslash, 'r']
  else if isPrintable c then [c]
  else if c.toNat < 0x100 then backslash :: 'x' :: hex 2 c.toNat
  else if c.toNat < 0x10000 then backslash :: 'u' :: hex 4 c.toNat
  else backslash :: 'U' :: hex 8 c.toNat

/-- The text as a literal: between apostrophes, or between quotation marks when it
has an apostrophe and no quotation mark. -/
def literal (text : String) : String :=
  let quote :=
    if apostrophe ∈ text.toList ∧ quotationMark ∉ text.toList then quotationMark else apostrophe
  String.ofList (quote :: text.toList.flatMap (escaped quote) ++ [quote])

example : literal "emp_ada" = "'emp_ada'" ∧ literal "o'hara" = "\"o'hara\"" := by decide +kernel

/-! ## Numerals

Digits contain no separator, and a numeral determines its number. -/

theorem pad_inj {w n m : Nat} (h : pad w n = pad w m) : n = m := by
  have h' := congrArg (fun s => Nat.ofDigitChars 10 s.toList 0) h
  simpa only [pad, String.toList_append, String.toList_ofList, Nat.toList_repr,
    Nat.ofDigitChars_append, Nat.ofDigitChars_replicate_zero, Nat.mul_zero,
    Nat.ofDigitChars_ten_toDigits] using h'

theorem pad_ne_empty {w n : Nat} (hw : 0 < w) : pad w n ≠ "" := by
  intro h
  have hlength := congrArg (fun s : String => s.toList.length) h
  simp only [pad, String.toList_append, String.toList_ofList, List.length_append,
    List.length_replicate] at hlength
  have hzero : ("" : String).toList.length = 0 := rfl
  omega

/-- A padded numeral consists of digits. -/
theorem isDigit_of_mem_pad {w n : Nat} {c : Char} (h : c ∈ (pad w n).toList) : c.isDigit := by
  rw [pad, String.toList_append, String.toList_ofList, Nat.toList_repr, List.mem_append] at h
  rcases h with h | h
  · rw [List.eq_of_mem_replicate h]
    rfl
  · exact Nat.isDigit_of_mem_toDigits (by decide) (by decide) h

theorem sep_notMem_pad {c : Char} (hc : c.isDigit = false) {w n : Nat} :
    c ∉ (pad w n).toList := by
  intro h
  rw [isDigit_of_mem_pad h] at hc
  cases hc

theorem repr_inj {n m : Nat} (h : n.repr = m.repr) : n = m := by
  have h' := congrArg (fun s => Nat.ofDigitChars 10 s.toList 0) h
  simpa only [Nat.toList_repr, Nat.ofDigitChars_ten_toDigits] using h'

theorem isDigit_of_mem_repr {n : Nat} {c : Char} (h : c ∈ n.repr.toList) : c.isDigit := by
  rw [Nat.toList_repr] at h
  exact Nat.isDigit_of_mem_toDigits (by decide) (by decide) h

theorem minus_append_ne_repr {n : Nat} {s : String} : "-" ++ s ≠ n.repr := by
  intro h
  have hmem : '-' ∈ n.repr.toList := by
    rw [← h, String.toList_append]
    exact List.mem_append_left _ (by decide)
  exact absurd (isDigit_of_mem_repr hmem) (by decide)

theorem decimal_inj {n m : Int} (h : decimal n = decimal m) : n = m := by
  simp only [decimal] at h
  split_ifs at h with hn hm hm
  · have := repr_inj (String.append_right_inj "-" |>.mp h)
    omega
  · exact absurd h minus_append_ne_repr
  · exact absurd h.symm minus_append_ne_repr
  · have := repr_inj h
    omega

/-- A numeral consists of digits and perhaps a sign. -/
theorem notMem_decimal {c : Char} (hsign : c ≠ '-') (hdigit : c.isDigit = false) (n : Int) :
    c ∉ (decimal n).toList := by
  intro h
  have hrepr {k : Nat} (hk : c ∈ k.repr.toList) : False := by
    have hc := isDigit_of_mem_repr hk
    rw [hdigit] at hc
    cases hc
  simp only [decimal] at h
  split at h
  · rw [String.toList_append, List.mem_append] at h
    exact h.elim (fun hc => hsign (List.mem_singleton.mp hc)) hrepr
  · exact hrepr h

/-! ## Separators -/

/-- A list splits uniquely at the first occurrence of a separator. -/
theorem append_cons_inj {α : Type} {x : α} :
    ∀ {as bs cs ds : List α}, x ∉ as → x ∉ cs →
      as ++ x :: bs = cs ++ x :: ds → as = cs ∧ bs = ds
  | [], _, [], _, _, _, h => ⟨rfl, (List.cons.inj h).2⟩
  | [], _, c :: _, _, _, hc, h => by
    rw [(List.cons.inj h).1] at hc
    exact absurd (List.mem_cons_self ..) hc
  | a :: _, _, [], _, ha, _, h => by
    rw [← (List.cons.inj h).1] at ha
    exact absurd (List.mem_cons_self ..) ha
  | a :: as, bs, c :: cs, ds, ha, hc, h => by
    obtain ⟨rfl, htail⟩ : a = c ∧ as ++ x :: bs = cs ++ x :: ds := List.cons.inj h
    obtain ⟨h₁, h₂⟩ := append_cons_inj (fun hm => ha (List.mem_cons_of_mem _ hm))
      (fun hm => hc (List.mem_cons_of_mem _ hm)) htail
    exact ⟨congrArg _ h₁, h₂⟩

/-- A text splits uniquely at the first occurrence of a separator. -/
theorem append_sep_inj {a b c d : String} {x : Char} (ha : x ∉ a.toList) (hc : x ∉ c.toList)
    (h : a ++ String.singleton x ++ b = c ++ String.singleton x ++ d) : a = c ∧ b = d := by
  have h' := congrArg String.toList h
  simp only [String.toList_append, String.toList_singleton, List.append_assoc,
    List.singleton_append] at h'
  obtain ⟨h₁, h₂⟩ := append_cons_inj ha hc h'
  exact ⟨String.toList_injective h₁, String.toList_injective h₂⟩

/-- A text splits uniquely at the last occurrence of a separator. -/
theorem append_sep_inj' {a b c d : String} {x : Char} (hb : x ∉ b.toList) (hd : x ∉ d.toList)
    (h : a ++ String.singleton x ++ b = c ++ String.singleton x ++ d) : a = c ∧ b = d := by
  have h' := congrArg (fun s => s.toList.reverse) h
  simp only [String.toList_append, String.toList_singleton, List.reverse_append,
    List.reverse_singleton, List.singleton_append] at h'
  obtain ⟨h₁, h₂⟩ := append_cons_inj (by simpa using hb) (by simpa using hd) h'
  exact ⟨String.toList_injective (List.reverse_inj.mp h₂),
    String.toList_injective (List.reverse_inj.mp h₁)⟩

end Text
