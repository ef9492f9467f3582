import Mathlib.Data.List.Nodup
import Mathlib.Logic.Function.Basic
import Mathlib.Tactic.Common

/-!
# Lists of rows as maps

A list of rows with a key is a map: `find` is the row of a key. There are two
ways to write a row that may be there already: `upsert` replaces it, `fill`
leaves it alone. `find_upsert` and `find_fills` say what is found afterwards, as
equations between maps; both keep keys distinct and change nothing the second
time.

A list that is written only so can therefore be reasoned about as a function
from keys to rows, and the order of its rows does not matter for what is found.
-/

namespace Keyed

variable {κ ρ : Type} [DecidableEq κ] (key : ρ → κ)

/-- The row of a key. -/
def find (rows : List ρ) (k : κ) : Option ρ := rows.find? fun r => key r = k

/-- Replace the row of the key, or add one. -/
def upsert (rows : List ρ) (r : ρ) : List ρ :=
  if ∃ s ∈ rows, key s = key r then rows.map fun s => if key s = key r then r else s
  else rows ++ [r]

/-- Add a row unless the key has one. -/
def fill (rows : List ρ) (r : ρ) : List ρ :=
  if ∃ s ∈ rows, key s = key r then rows else rows ++ [r]

/-- Add several rows in turn. -/
def fills (rows : List ρ) (rs : List ρ) : List ρ := rs.foldl (fill key) rows

variable {key} {rows rs : List ρ} {r : ρ} {k : κ}

/-- A key finds nothing exactly when no row has it. -/
theorem find_eq_none : find key rows k = none ↔ ∀ r ∈ rows, key r ≠ k := by
  simp [find]

theorem find_isSome : (find key rows k).isSome ↔ ∃ r ∈ rows, key r = k := by
  simp [find]

/-- With distinct keys, what is found is what is there. -/
theorem find_eq_some (h : (rows.map key).Nodup) :
    find key rows k = some r ↔ r ∈ rows ∧ key r = k := by
  constructor
  · intro hfind
    exact ⟨List.mem_of_find?_eq_some hfind, by simpa using List.find?_some hfind⟩
  · rintro ⟨hr, rfl⟩
    have hfound : (find key rows (key r)).isSome := find_isSome.mpr ⟨r, hr, rfl⟩
    obtain ⟨s, hs⟩ := Option.isSome_iff_exists.mp hfound
    have hkey : key s = key r := by simpa using List.find?_some hs
    rw [hs, List.inj_on_of_nodup_map h (List.mem_of_find?_eq_some hs) hr hkey]

/-- A row at the end is found where no earlier row has its key. -/
theorem find_append_singleton : find key (rows ++ [r]) k
    = (find key rows k).or (if key r = k then some r else none) := by
  simp only [find, List.find?_append, List.find?_singleton, decide_eq_true_eq]

/-- Replacing the rows of a key replaces what is found under it. -/
theorem find_map_replace :
    find key (rows.map fun s => if key s = key r then r else s) k
      = (find key rows k).map fun s => if key s = key r then r else s := by
  have hkeys : ((fun s => decide (key s = k)) ∘ fun s => if key s = key r then r else s)
      = fun s => decide (key s = k) := by
    funext s
    simp only [Function.comp_apply]
    split
    · next h => rw [h]
    · rfl
  simp only [find, List.find?_map, hkeys]

/-- `upsert` is the update of the map. -/
theorem find_upsert :
    find key (upsert key rows r) = Function.update (find key rows) (key r) (some r) := by
  funext k
  by_cases hk : k = key r
  · subst hk
    rw [Function.update_self]
    simp only [upsert]
    split
    · next h =>
      obtain ⟨s, hs⟩ := Option.isSome_iff_exists.mp (find_isSome.mpr h)
      have hkey : key s = key r := by simpa using List.find?_some hs
      rw [find_map_replace, hs, Option.map_some, if_pos hkey]
    · next h =>
      rw [find_append_singleton, find_eq_none.mpr fun s hs hkey => h ⟨s, hs, hkey⟩, if_pos rfl,
        Option.none_or]
  · rw [Function.update_of_ne hk]
    simp only [upsert]
    split
    · rw [find_map_replace]
      cases hs : find key rows k with
      | none => rfl
      | some s =>
        have hkey : key s = k := by simpa using List.find?_some hs
        rw [Option.map_some, if_neg (hkey ▸ hk)]
    · rw [find_append_singleton, if_neg (Ne.symm hk), Option.or_none]

/-- `fill` adds to the map where it has nothing. -/
theorem find_fill : find key (fill key rows r) k
    = (find key rows k).or (if key r = k then some r else none) := by
  simp only [fill]
  split
  · next h =>
    split
    · next hk =>
      obtain ⟨s, hs⟩ := Option.isSome_iff_exists.mp (find_isSome.mpr (hk ▸ h))
      rw [hs, Option.some_or]
    · rw [Option.or_none]
  · exact find_append_singleton

/-- The first of the new rows counts, where there was none. -/
theorem find_fills : find key (fills key rows rs) k = (find key rows k).or (find key rs k) := by
  simp only [fills]
  induction rs generalizing rows with
  | nil => exact (Option.or_none ..).symm
  | cons r rs ih =>
    rw [List.foldl_cons, ih, find_fill, Option.or_assoc]
    refine congrArg _ ?_
    simp only [find, List.find?_cons]
    by_cases hk : key r = k
    · rw [if_pos hk, decide_eq_true hk, Option.some_or]
    · rw [if_neg hk, decide_eq_false hk, Option.none_or]

/-! ## Distinct keys -/

omit [DecidableEq κ] in

/-- A new row needs a new key. -/
theorem nodup_append_singleton (h : (rows.map key).Nodup) (hr : ¬ ∃ s ∈ rows, key s = key r) :
    ((rows ++ [r]).map key).Nodup := by
  rw [List.map_append, List.map_singleton]
  refine List.nodup_append.mpr ⟨h, List.nodup_singleton _, fun k hk k' hk' hsame => ?_⟩
  obtain ⟨s, hs, rfl⟩ := List.mem_map.mp hk
  exact hr ⟨s, hs, hsame.trans (List.mem_singleton.mp hk')⟩

/-- Neither way of writing doubles a key. -/
theorem nodup_upsert (h : (rows.map key).Nodup) : ((upsert key rows r).map key).Nodup := by
  simp only [upsert]
  split
  · have hkeys : (rows.map fun s => if key s = key r then r else s).map key = rows.map key := by
      rw [List.map_map]
      refine List.map_congr_left fun s _ => ?_
      simp only [Function.comp_apply]
      split
      · next hkey => exact hkey.symm
      · rfl
    rw [hkeys]
    exact h
  · next hr => exact nodup_append_singleton h hr

theorem nodup_fill (h : (rows.map key).Nodup) : ((fill key rows r).map key).Nodup := by
  simp only [fill]
  split
  · exact h
  · next hr => exact nodup_append_singleton h hr

theorem nodup_fills (h : (rows.map key).Nodup) : ((fills key rows rs).map key).Nodup := by
  simp only [fills]
  induction rs generalizing rows with
  | nil => exact h
  | cons r rs ih => exact ih (nodup_fill h)

/-! ## A second time

Both ways of writing look for the key first, so what was just written is found.
-/

/-- Writing the same row again replaces it by itself. -/
theorem upsert_upsert : upsert key (upsert key rows r) r = upsert key rows r := by
  have hthere : ∃ s ∈ upsert key rows r, key s = key r := by
    have hfound : find key (upsert key rows r) (key r) = some r := by
      rw [find_upsert, Function.update_self]
    exact find_isSome.mp (by rw [hfound]; rfl)
  have hreplaced : ∀ s ∈ upsert key rows r, key s = key r → s = r := by
    simp only [upsert]
    intro s hs hkey
    split at hs
    · obtain ⟨t, -, rfl⟩ := List.mem_map.mp hs
      split at hkey
      · next h => rw [if_pos h]
      · next h => exact absurd hkey h
    · next h =>
      rcases List.mem_append.mp hs with hs | hs
      · exact absurd ⟨s, hs, hkey⟩ h
      · exact List.mem_singleton.mp hs
  have hunfold : upsert key (upsert key rows r) r
      = (upsert key rows r).map fun s => if key s = key r then r else s := if_pos hthere
  rw [hunfold]
  refine (List.map_congr_left fun s hs => ?_).trans (List.map_id _)
  split
  · next hkey => exact (hreplaced s hs hkey).symm
  · rfl

/-- There is nothing to fill where every key is found. -/
theorem fills_of_found (h : ∀ r ∈ rs, (find key rows (key r)).isSome) :
    fills key rows rs = rows := by
  simp only [fills]
  induction rs with
  | nil => rfl
  | cons r rs ih =>
    have hfill : fill key rows r = rows := if_pos (find_isSome.mp (h r (List.mem_cons_self ..)))
    rw [List.foldl_cons, hfill]
    exact ih fun s hs => h s (List.mem_cons_of_mem _ hs)

/-- So filling again changes nothing. -/
theorem fills_fills : fills key (fills key rows rs) rs = fills key rows rs := by
  refine fills_of_found fun r hr => ?_
  rw [find_fills]
  have hfound : (find key rs (key r)).isSome := find_isSome.mpr ⟨r, hr, rfl⟩
  obtain ⟨s, hs⟩ := Option.isSome_iff_exists.mp hfound
  rw [hs]
  cases find key rows (key r) <;> rfl

end Keyed
