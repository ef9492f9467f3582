import Mathlib.Data.List.Chain
import Mathlib.Data.List.Nodup
import Mathlib.Order.Lattice
import Mathlib.Tactic.Common

/-!
# Tilings of the integers by consecutive cells

A `Tiling` sends every integer to the cell `[first d, last d]` around it, such
that all members of a cell agree on the cell. Being closed under the two laws is
all that calendars need: weeks, halves of months, months and years are tilings
of the days, and so is any partition into finite consecutive blocks.

`walk` lists the cells met when walking upwards from one integer through
another, each by its first member; `mem_walk` says which cells these are. They
follow each other without gaps (`isChain_walk`), from the cell of the one to the
cell of the other, and cover what lies between just once (`countP_walk`).

The walk has a fuel argument, and a cell has at least one member, so the
distance is fuel enough. What is proved about walks is proved by induction over
the fuel, from one fact: the member after the last of a cell is the first of the
next (`first_succ_last`).
-/

/-- A partition of the integers into consecutive finite cells. -/
structure Tiling where
  first : Int → Int
  last : Int → Int
  first_le : ∀ d, first d ≤ d
  le_last : ∀ d, d ≤ last d
  same : ∀ {d x}, first d ≤ x → x ≤ last d → first x = first d ∧ last x = last d

namespace Tiling

variable (T : Tiling)

/-- The first member of a cell has that cell. -/
theorem first_first (d : Int) : T.first (T.first d) = T.first d :=
  (T.same (le_refl _) (le_trans (T.first_le d) (T.le_last d))).1

theorem last_first (d : Int) : T.last (T.first d) = T.last d :=
  (T.same (le_refl _) (le_trans (T.first_le d) (T.le_last d))).2

theorem last_last (d : Int) : T.last (T.last d) = T.last d :=
  (T.same (le_trans (T.first_le d) (T.le_last d)) (le_refl _)).2

/-- The next cell starts right after this one. -/
theorem first_succ_last (d : Int) : T.first (T.last d + 1) = T.last d + 1 := by
  by_contra hne
  have hle := T.first_le (T.last d + 1)
  have hlast := T.le_last (T.last d + 1)
  have hsame := (@same T (T.last d + 1) (T.last d) (by omega) (by omega)).2
  rw [T.last_last] at hsame
  omega

/-- Two members are in one cell exactly when their cells start together. -/
theorem mem_cell_iff {d x : Int} : T.first x = T.first d ↔ T.first d ≤ x ∧ x ≤ T.last d := by
  constructor
  · intro h
    have hl : T.last x = T.last d := by rw [← T.last_first x, h, T.last_first]
    exact ⟨h ▸ T.first_le x, hl ▸ T.le_last x⟩
  · rintro ⟨h₁, h₂⟩
    exact (T.same h₁ h₂).1

/-- Cells start in order, and what lies past the end of a cell is in a later
one. -/
theorem first_le_first_iff {d x : Int} : T.first d ≤ T.first x ↔ d ≤ T.last x := by
  have hx := T.first_le x
  have hlast := T.le_last x
  have hd := T.le_last d
  constructor
  · intro h
    by_contra hlt
    have hsame : T.last x = T.last d := (T.same (by omega) (by omega)).2
    omega
  · intro h
    by_contra hlt
    have hfirst := T.first_le d
    have hsame : T.first d = T.first x := (T.same (by omega) h).1
    omega

/-- The first members of the cells met when walking from `d` up through
`through`, for at most `n` cells. -/
def walk (through : Int) : Nat → Int → List Int
  | 0, _ => []
  | n + 1, d =>
    if T.first d ≤ through then T.first d :: walk through n (T.last d + 1) else []

/-- With enough fuel the walk meets exactly the cells that start by `through`,
from the cell of `d` on. -/
theorem mem_walk {through : Int} {n : Nat} {d x : Int} (hn : through - T.first d < n) :
    x ∈ T.walk through n d ↔ T.first x = x ∧ T.first d ≤ x ∧ x ≤ through := by
  induction n generalizing d with
  | zero =>
    simp only [walk, List.not_mem_nil, false_iff]
    rintro ⟨-, h₁, h₂⟩
    omega
  | succ n ih =>
    have hcell := le_trans (T.first_le d) (T.le_last d)
    by_cases hd : T.first d ≤ through
    · have ih' := @ih (T.last d + 1) (by rw [T.first_succ_last]; omega)
      rw [T.first_succ_last] at ih'
      rw [walk, if_pos hd, List.mem_cons, ih']
      constructor
      · rintro (rfl | ⟨h₁, h₂, h₃⟩)
        · exact ⟨T.first_first d, le_refl _, hd⟩
        · exact ⟨h₁, by omega, h₃⟩
      · rintro ⟨h₁, h₂, h₃⟩
        rcases le_or_gt x (T.last d) with hx | hx
        · exact Or.inl (h₁ ▸ (T.same h₂ hx).1)
        · exact Or.inr ⟨h₁, by omega, h₃⟩
    · rw [walk, if_neg hd]
      simp only [List.not_mem_nil, false_iff]
      rintro ⟨-, h₁, h₂⟩
      omega

/-- More fuel than enough does not matter. -/
theorem walk_eq_walk {through : Int} {m n : Nat} {d : Int} (hm : through - T.first d < m)
    (hn : through - T.first d < n) : T.walk through m d = T.walk through n d := by
  induction m generalizing n d with
  | zero =>
    cases n with
    | zero => rfl
    | succ n => rw [walk, walk, if_neg (by omega)]
  | succ m ih =>
    have hcell := le_trans (T.first_le d) (T.le_last d)
    have hfirst := T.first_succ_last d
    cases n with
    | zero => rw [walk, walk, if_neg (by omega)]
    | succ n =>
      rw [walk, walk]
      by_cases hd : T.first d ≤ through
      · rw [if_pos hd, if_pos hd, ih (n := n) (by omega) (by omega)]
      · rw [if_neg hd, if_neg hd]

/-- The walk begins with the cell it is sent from. -/
theorem head?_walk {through : Int} {n : Nat} {d : Int} (hn : 0 < n) (hd : T.first d ≤ through) :
    (T.walk through n d).head? = some (T.first d) := by
  cases n with
  | zero => cases hn
  | succ n => rw [walk, if_pos hd, List.head?_cons]

/-- Every cell met begins right after the one before it. -/
theorem isChain_walk (through : Int) (n : Nat) (d : Int) :
    (T.walk through n d).IsChain fun x y => y = T.last x + 1 := by
  induction n generalizing d with
  | zero => exact List.isChain_nil
  | succ n ih =>
    rw [walk]
    split
    · refine List.isChain_cons.mpr ⟨fun y hy => ?_, ih _⟩
      cases n with
      | zero => cases hy
      | succ n =>
        rw [walk] at hy
        split at hy
        · rw [List.head?_cons, Option.mem_some_iff] at hy
          rw [← hy, T.first_succ_last, T.last_first]
        · cases hy
    · exact List.isChain_nil

/-- No cell is met before the one that the walk is sent from. -/
theorem first_le_of_mem_walk {through : Int} {n : Nat} {d x : Int} (h : x ∈ T.walk through n d) :
    T.first d ≤ x := by
  induction n generalizing d with
  | zero => cases h
  | succ n ih =>
    rw [walk] at h
    split at h
    · rcases List.mem_cons.mp h with rfl | h
      · exact le_refl _
      · have hx := ih h
        have hcell := le_trans (T.first_le d) (T.le_last d)
        rw [T.first_succ_last] at hx
        omega
    · cases h

/-- A walk that ends earlier meets the cells that start by then. -/
theorem filter_walk {through through' : Int} (h : through' ≤ through) (n : Nat) (d : Int) :
    (T.walk through n d).filter (· ≤ through') = T.walk through' n d := by
  induction n generalizing d with
  | zero => rfl
  | succ n ih =>
    rw [walk, walk]
    by_cases hd : T.first d ≤ through'
    · rw [if_pos hd, if_pos (le_trans hd h), List.filter_cons, if_pos (decide_eq_true hd), ih]
    · rw [if_neg hd]
      refine List.filter_eq_nil_iff.mpr fun x hx hle => ?_
      have hfirst : T.first d ≤ x := T.first_le_of_mem_walk (n := n + 1) (by rw [walk]; exact hx)
      exact hd (le_trans hfirst (of_decide_eq_true hle))

/-- No cell is met twice. -/
theorem nodup_walk (through : Int) (n : Nat) (d : Int) : (T.walk through n d).Nodup := by
  induction n generalizing d with
  | zero => exact List.nodup_nil
  | succ n ih =>
    rw [walk]
    split
    · refine List.nodup_cons.mpr ⟨fun hmem => ?_, ih _⟩
      have hlater := T.first_le_of_mem_walk hmem
      have hcell := le_trans (T.first_le d) (T.le_last d)
      rw [T.first_succ_last] at hlater
      omega
    · exact List.nodup_nil

/-- With enough fuel the walk ends with the cell of `through`. -/
theorem getLast?_walk {through : Int} {n : Nat} {d : Int} (hn : through - T.first d < n)
    (hd : T.first d ≤ through) :
    (T.walk through n d).getLast? = some (T.first through) := by
  induction n generalizing d with
  | zero => omega
  | succ n ih =>
    have hcell := le_trans (T.first_le d) (T.le_last d)
    rw [walk, if_pos hd, List.getLast?_cons]
    by_cases hlast : T.last d < through
    · have hfirst := T.first_succ_last d
      rw [ih (by omega) (by omega), Option.getD_some]
    · -- the cell of `d` is the last, and nothing comes after it
      have hnil : T.walk through n (T.last d + 1) = [] := by
        refine List.eq_nil_iff_forall_not_mem.mpr fun x hx => ?_
        have hx' := (T.mem_walk (by rw [T.first_succ_last]; omega)).mp hx
        rw [T.first_succ_last] at hx'
        omega
      rw [hnil, List.getLast?_nil, Option.getD_none, (T.same hd (not_lt.mp hlast)).1]

/-- Every member from `d` to `through` is in exactly one of the cells met. -/
theorem countP_walk {through : Int} {n : Nat} {d x : Int} (hn : through - T.first d < n)
    (h₁ : d ≤ x) (h₂ : x ≤ through) :
    (T.walk through n d).countP (fun c => c ≤ x ∧ x ≤ T.last c) = 1 := by
  have hmem : T.first x ∈ T.walk through n d :=
    (T.mem_walk hn).mpr ⟨T.first_first x, T.first_le_first_iff.mpr (le_trans h₁ (T.le_last x)),
      le_trans (T.first_le x) h₂⟩
  have hcell : ∀ c ∈ T.walk through n d,
      decide (c ≤ x ∧ x ≤ T.last c) = true ↔ (c == T.first x) = true := by
    intro c hc
    have hself := ((T.mem_walk hn).mp hc).1
    rw [decide_eq_true_eq, beq_iff_eq, eq_comm (a := c)]
    conv_lhs => lhs; rw [← hself]
    rw [← T.mem_cell_iff, hself]
  rw [List.countP_congr hcell]
  exact List.count_eq_one_of_mem (T.nodup_walk through n d) hmem

/-- Blocks of `stride` days counted from an anchor. -/
def blocks (anchor stride : Int) (hs : 0 < stride) : Tiling where
  first d := anchor + (d - anchor) / stride * stride
  last d := anchor + (d - anchor) / stride * stride + (stride - 1)
  first_le d := by
    have := Int.ediv_mul_le (d - anchor) (ne_of_gt hs)
    omega
  le_last d := by
    have := Int.lt_ediv_add_one_mul_self (d - anchor) hs
    rw [Int.add_mul, Int.one_mul] at this
    omega
  same {d x} h₁ h₂ := by
    have h : (x - anchor) / stride = (d - anchor) / stride := by
      apply le_antisymm
      · rw [← Int.lt_add_one_iff, Int.ediv_lt_iff_lt_mul hs, Int.add_mul, Int.one_mul]
        omega
      · rw [Int.le_ediv_iff_mul_le hs]
        omega
    rw [h]
    exact ⟨rfl, rfl⟩

end Tiling
