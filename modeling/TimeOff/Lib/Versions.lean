import Mathlib.Data.List.Sort
import Mathlib.Order.Basic
import Mathlib.Tactic.Common

/-!
# Append-only histories

A history lists the versions of one thing: they are numbered from 1 and begin at
increasing times (`History`). Then the version in force at a time is the last
that has begun, whether the last is found by time or by number
(`History.inForce_eq_maxOn_no`), and a version that begins after all others
takes over from its own time on (`inForce_append`).

Both lookups are maxima over a part of the list, by a measure that increases
along it; such a maximum is the last of the part (`maxOn?_eq_getLast?`), so the
two are the same element. Times may be of any linear order.
-/

namespace Versions

variable {α τ : Type} [LinearOrder τ] {no : α → Int} {since : α → τ} {rows : List α} {v : α}

/-- The last element by a measure that it exceeds all others in. -/
theorem maxOn?_append_of_lt {β : Type} [LinearOrder β] {f : α → β} (h : ∀ w ∈ rows, f w < f v) :
    (rows ++ [v]).maxOn? f = some v := by
  have hlast : v ∈ rows ++ [v] := List.mem_append_right _ (List.mem_singleton.mpr rfl)
  obtain ⟨m, hm⟩ := Option.isSome_iff_exists.mp (List.isSome_maxOn?_of_mem (f := f) hlast)
  have hle := List.le_apply_get_maxOn?_of_mem (f := f) hlast
  rw [hm]
  simp only [hm, Option.get_some] at hle
  rcases List.mem_append.mp (List.maxOn?_mem hm) with hold | hnew
  · exact absurd hle (not_le.mpr (h m hold))
  · rw [List.mem_singleton.mp hnew]

/-- In a list that increases, the maximum is the last. -/
theorem maxOn?_eq_getLast? {β : Type} [LinearOrder β] {f : α → β}
    (h : rows.Pairwise fun a b => f a < f b) : rows.maxOn? f = rows.getLast? := by
  rcases List.eq_nil_or_concat rows with rfl | ⟨init, last, rfl⟩
  · rfl
  · rw [List.concat_eq_append] at h ⊢
    rw [List.getLast?_concat]
    exact maxOn?_append_of_lt fun w hw => (List.pairwise_append.mp h).2.2 w hw last
      (List.mem_singleton.mpr rfl)

/-- The version in force at a time: of those that have begun, the one that began
last. -/
def inForce (since : α → τ) (rows : List α) (t : τ) : Option α :=
  (rows.filter fun v => since v ≤ t).maxOn? since

/-- Versions numbered from 1, beginning one after the other. -/
structure History (no : α → Int) (since : α → τ) (rows : List α) : Prop where
  numbered : rows.map no = (List.range rows.length).map fun i : Nat => (i : Int) + 1
  increasing : rows.Pairwise fun a b => since a < since b

namespace History

theorem nil : History no since ([] : List α) := ⟨rfl, .nil⟩

theorem no_increasing (h : History no since rows) : rows.Pairwise fun a b => no a < no b := by
  have hmap : (rows.map no).Pairwise (· < ·) := by
    rw [h.numbered, List.pairwise_map]
    exact List.pairwise_lt_range.imp fun hlt => by omega
  exact List.pairwise_map.mp hmap

/-- By time or by number, the same version is the last of those that have
begun. -/
theorem inForce_eq_maxOn_no (h : History no since rows) (t : τ) :
    inForce since rows t = (rows.filter fun v => since v ≤ t).maxOn? no := by
  unfold inForce
  rw [maxOn?_eq_getLast? (h.increasing.filter _), maxOn?_eq_getLast? (h.no_increasing.filter _)]

/-- The version of the highest number is the last: its number is how many there
are, and none begins after it. -/
theorem of_latest (h : History no since rows) (hv : rows.maxOn? no = some v) :
    no v = rows.length ∧ ∀ w ∈ rows, since w ≤ since v := by
  rw [maxOn?_eq_getLast? h.no_increasing] at hv
  obtain ⟨init, rfl⟩ := List.getLast?_eq_some_iff.mp hv
  constructor
  · have hlast := congrArg List.getLast? h.numbered
    rw [List.map_append, List.map_singleton, List.getLast?_concat, List.length_append,
      List.length_singleton, List.range_succ, List.map_append, List.map_singleton,
      List.getLast?_concat] at hlast
    rw [List.length_append, List.length_singleton]
    have := Option.some.inj hlast
    omega
  · intro w hw
    rcases List.mem_append.mp hw with hw | hw
    · exact le_of_lt ((List.pairwise_append.mp h.increasing).2.2 w hw v
        (List.mem_singleton.mpr rfl))
    · rw [List.mem_singleton.mp hw]

/-- A next version, with the next number and a later beginning. -/
theorem append (h : History no since rows) (hno : no v = rows.length + 1)
    (hsince : ∀ w ∈ rows, since w < since v) : History no since (rows ++ [v]) := by
  constructor
  · rw [List.map_append, List.map_singleton, h.numbered, List.length_append, List.length_singleton,
      List.range_succ, List.map_append, List.map_singleton, hno]
  · refine List.pairwise_append.mpr ⟨h.increasing, List.pairwise_singleton _ _, fun w hw x hx => ?_⟩
    rw [List.mem_singleton.mp hx]
    exact hsince w hw

end History

/-- A version that begins after all others is in force from then on, and changes
nothing before. -/
theorem inForce_append (hsince : ∀ w ∈ rows, since w < since v) (t : τ) :
    inForce since (rows ++ [v]) t = if since v ≤ t then some v else inForce since rows t := by
  unfold inForce
  rw [List.filter_append]
  split
  · next hbegun =>
    rw [List.filter_cons_of_pos (by simpa using hbegun), List.filter_nil]
    exact maxOn?_append_of_lt fun w hw => hsince w (List.mem_of_mem_filter hw)
  · next hlater =>
    rw [List.filter_cons_of_neg (by simpa using hlater), List.filter_nil, List.append_nil]

end Versions
