import TimeOff.Lib.Table

/-!
# Rows and their owners

Two things one needs to say that a write stays within what one owner has:

- `others`: the rows that are not owned. A write that only adds owned rows and
  only changes or drops owned ones leaves them as they are, in their order;
- `ownerOf`: the owner of the row with an id, which is how rows that point at
  another row find theirs. Ids in use keep their owner when rows are added, or
  changed without touching id and owner.

And what two tables have in common, a reader of that part finds in both
(`filter_of_filter`, `find?_owned`).
-/

variable {ρ κ ω : Type}

/-! ## Parts of two tables -/

section parts

variable {p q q' : ρ → Prop} [DecidablePred p] [DecidablePred q] [DecidablePred q']
  {rows rows' : List ρ}

/-- Where two tables have a part in common, smaller parts of it are the same. -/
theorem filter_of_filter (h : ∀ r ∈ rows, p r → q r) (h' : ∀ r ∈ rows', p r → q' r)
    (heq : (rows'.filter fun r => q' r) = rows.filter fun r => q r) :
    (rows'.filter fun r => p r) = rows.filter fun r => p r := by
  have hpart : ∀ {q : ρ → Prop} [DecidablePred q] {rows : List ρ}, (∀ r ∈ rows, p r → q r) →
      ((rows.filter fun r => q r).filter fun r => p r) = rows.filter fun r => p r := by
    intro q _ rows hq
    rw [List.filter_filter]
    refine List.filter_congr fun r hr => ?_
    by_cases hp : p r
    · simp [hp, hq r hr hp]
    · simp [hp]
  rw [← hpart h', heq, hpart h]

/-- So a search that stays in the common part finds the same. -/
theorem find?_of_filter (h : ∀ r ∈ rows, p r → q r) (h' : ∀ r ∈ rows', p r → q' r)
    (heq : (rows'.filter fun r => q' r) = rows.filter fun r => q r) :
    (rows'.find? fun r => p r) = rows.find? fun r => p r := by
  rw [← List.head?_filter, ← List.head?_filter, filter_of_filter h h' heq]

end parts

/-! ## The rows of others

How the rows that are not owned change: not at all, by any change of owned rows
that leaves them owned. -/

/-- The rows that are not owned. -/
def others (owned : ρ → Prop) [DecidablePred owned] (rows : List ρ) : List ρ :=
  rows.filter fun r => ¬ owned r

section others

variable {owned owned' : ρ → Prop} [DecidablePred owned] [DecidablePred owned'] {rows new : List ρ}

/-- Who owns which rows is all that matters. -/
theorem others_congr (h : ∀ r ∈ rows, owned r ↔ owned' r) :
    others owned rows = others owned' rows := by
  refine List.filter_congr fun r hr => ?_
  simp [h r hr]

/-- Owned rows are added. -/
theorem others_append (h : ∀ r ∈ new, owned r) :
    others owned (rows ++ new) = others owned rows := by
  simp only [others]
  rw [List.filter_append]
  have hnone : new.filter (fun r => decide ¬ owned r) = [] :=
    List.filter_eq_nil_iff.mpr fun r hr => by simpa using h r hr
  rw [hnone, List.append_nil]

/-- Owned rows are changed, or dropped. -/
theorem others_filterMap {f : ρ → Option ρ} (hkeep : ∀ r ∈ rows, ¬ owned r → f r = some r)
    (howned : ∀ r ∈ rows, owned r → ∀ s ∈ f r, owned s) :
    others owned (rows.filterMap f) = others owned rows := by
  induction rows with
  | nil => rfl
  | cons r rows ih =>
    have hrest := ih (fun s hs => hkeep s (List.mem_cons_of_mem _ hs))
      fun s hs => howned s (List.mem_cons_of_mem _ hs)
    simp only [others] at hrest ⊢
    by_cases hr : owned r
    · rw [List.filterMap_cons, List.filter_cons_of_neg (by simpa using hr)]
      cases hf : f r with
      | none => exact hrest
      | some s =>
        have hs := howned r (List.mem_cons_self ..) hr s hf
        rw [List.filter_cons_of_neg (by simpa using hs)]
        exact hrest
    · rw [List.filterMap_cons, hkeep r (List.mem_cons_self ..) hr]
      dsimp only
      rw [List.filter_cons_of_pos (by simpa using hr), List.filter_cons_of_pos (by simpa using hr),
        hrest]

/-- Owned rows are changed. -/
theorem others_map {f : ρ → ρ} (hkeep : ∀ r ∈ rows, ¬ owned r → f r = r)
    (howned : ∀ r ∈ rows, owned r → owned (f r)) :
    others owned (rows.map f) = others owned rows := by
  rw [← List.filterMap_eq_map]
  refine others_filterMap (fun r hr hnot => congrArg some (hkeep r hr hnot)) ?_
  intro r hr hown s hs
  cases hs
  exact howned r hr hown

/-- Owned rows are dropped. -/
theorem others_filter {p : ρ → Bool} (hkeep : ∀ r ∈ rows, ¬ owned r → p r = true) :
    others owned (rows.filter p) = others owned rows := by
  rw [← List.filterMap_eq_filter]
  refine others_filterMap (fun r hr hnot => ?_) ?_
  · simp [Option.guard, hkeep r hr hnot]
  · intro r _ hown s hs
    obtain ⟨rfl, -⟩ := Option.guard_eq_some_iff.mp hs
    exact hown

/-- Fewer rows are others', by an owner who owns whatever is owned. -/
theorem others_mono {wider : ρ → Prop} [DecidablePred wider] {rows' : List ρ}
    (h : ∀ r ∈ rows, ¬ wider r → ¬ owned r) (h' : ∀ r ∈ rows', ¬ wider r → ¬ owned' r)
    (heq : others owned' rows' = others owned rows) : others wider rows' = others wider rows :=
  filter_of_filter h h' heq

end others

namespace Table

variable [DecidableEq κ] {key : ρ → κ} {t : Table κ ρ key} {owned : ρ → Prop}
  [DecidablePred owned]

/-- A new row of the owner. -/
theorem others_insertNew {r : ρ} (h : owned r) :
    others owned (t.insertNew r).rows = others owned t.rows := by
  by_cases hr : t.Has (key r)
  · rw [insertNew_of_has hr]
  · rw [rows_insertNew hr]
    refine others_append fun s hs => ?_
    rw [List.mem_singleton.mp hs]
    exact h

/-- A row of the owner that stays one. -/
theorem others_modify {k : κ} {f : ρ → ρ} {hf : ∀ r, key (f r) = key r}
    (howned : ∀ r ∈ t.rows, key r = k → owned r) (hkeep : ∀ r, owned r → owned (f r)) :
    others owned (t.modify k f hf).rows = others owned t.rows := by
  refine others_map (fun r hr hnot => ?_) fun r _ hown => ?_
  · exact if_neg fun hk => hnot (howned r hr hk)
  · show owned (if key r = k then f r else r)
    split
    · exact hkeep r hown
    · exact hown

end Table

/-! ## The owner of an id

An id tells its owner for good, as long as rows keep both. -/

section ownerOf

variable [DecidableEq κ] {id : ρ → κ} {owner : ρ → ω} {rows new : List ρ} {k : κ} {o : ω}

/-- The owner of the row with id `k`. -/
def ownerOf (id : ρ → κ) (owner : ρ → ω) (rows : List ρ) (k : κ) : Option ω :=
  (rows.find? fun r => id r = k).map owner

/-- The owner of an id owns a row with it. -/
theorem ownerOf_eq_some (h : ownerOf id owner rows k = some o) :
    ∃ r ∈ rows, id r = k ∧ owner r = o := by
  obtain ⟨r, hr, rfl⟩ := Option.map_eq_some_iff.mp h
  exact ⟨r, List.mem_of_find?_eq_some hr, by simpa using List.find?_some hr, rfl⟩

/-- Where ids are unique, every row is found by its own. -/
theorem ownerOf_of_mem (hnodup : (rows.map id).Nodup) {r : ρ} (hr : r ∈ rows) :
    ownerOf id owner rows (id r) = some (owner r) := by
  let t : Table κ ρ id := ⟨rows, hnodup⟩
  have hfind : t.find? (id r) = some r := Table.find?_eq_some.mpr ⟨hr, rfl⟩
  exact congrArg (Option.map owner) hfind

/-- New rows do not take an id from its owner. -/
theorem ownerOf_append (h : ownerOf id owner rows k = some o) :
    ownerOf id owner (rows ++ new) k = some o := by
  obtain ⟨r, hr, rfl⟩ := Option.map_eq_some_iff.mp h
  simp only [ownerOf]
  rw [List.find?_append, hr]
  rfl

/-- Nor do changes that keep id and owner. -/
theorem ownerOf_map {f : ρ → ρ} (hid : ∀ r, id (f r) = id r) (howner : ∀ r, owner (f r) = owner r) :
    ownerOf id owner (rows.map f) k = ownerOf id owner rows k := by
  simp only [ownerOf]
  rw [List.find?_map, Option.map_map]
  have hfind : ((fun r => decide (id r = k)) ∘ f) = fun r => decide (id r = k) := by
    funext r
    simp [hid r]
  have howned : owner ∘ f = owner := funext howner
  rw [hfind, howned]

/-- Dropping rows with other ids. -/
theorem ownerOf_filter {p : ρ → Bool} (h : ∀ r ∈ rows, id r = k → p r = true) :
    ownerOf id owner (rows.filter p) k = ownerOf id owner rows k := by
  simp only [ownerOf]
  congr 1
  induction rows with
  | nil => rfl
  | cons r rows ih =>
    have hrest := ih fun s hs => h s (List.mem_cons_of_mem _ hs)
    by_cases hk : id r = k
    · rw [List.filter_cons_of_pos (h r (List.mem_cons_self ..) hk)]
      simp [hk]
    · by_cases hp : p r = true
      · rw [List.filter_cons_of_pos hp]
        simp [hk, hrest]
      · rw [List.filter_cons_of_neg hp]
        simp [hk, hrest]

end ownerOf

section owned

variable [DecidableEq κ] [DecidableEq ω] {id : ρ → κ} {owner : ρ → ω} {rows rows' : List ρ}
  {k : κ} {o : ω}

/-- A row is found among those of its owner. -/
theorem find?_filter_owner (hnodup : (rows.map id).Nodup) :
    ((rows.filter fun r => owner r = o).find? fun r => id r = k)
      = (rows.find? fun r => id r = k).filter fun r => owner r = o := by
  let t : Table κ ρ id := ⟨rows, hnodup⟩
  let u : Table κ ρ id := t.filter fun r => owner r = o
  refine Option.ext fun r => ?_
  have hfound : u.find? k = some r ↔ (r ∈ rows ∧ owner r = o) ∧ id r = k := by
    rw [Table.find?_eq_some, Table.mem_filter, decide_eq_true_eq]
  have hrow : t.find? k = some r ↔ r ∈ rows ∧ id r = k := Table.find?_eq_some
  rw [Option.filter_eq_some_iff, decide_eq_true_eq]
  exact hfound.trans (and_right_comm.trans (and_congr_left fun _ => hrow.symm))

/-- Where an owner has the same rows in two tables, each is found in both. -/
theorem find?_owned (hnodup : (rows.map id).Nodup) (hnodup' : (rows'.map id).Nodup)
    (heq : (rows'.filter fun r => owner r = o) = rows.filter fun r => owner r = o)
    (h : ownerOf id owner rows k = some o) :
    (rows'.find? fun r => id r = k) = rows.find? fun r => id r = k := by
  obtain ⟨r, hr, rfl⟩ := Option.map_eq_some_iff.mp h
  have hsame : ((rows'.filter fun s => owner s = owner r).find? fun s => id s = k)
      = (rows'.find? fun s => id s = k).filter fun s => owner s = owner r :=
    find?_filter_owner hnodup'
  rw [heq, find?_filter_owner hnodup, hr, Option.filter_some_pos (by simp)] at hsame
  rw [hr]
  exact (Option.filter_eq_some_iff.mp hsame.symm).1

/-- So it owns the same ids in both. -/
theorem ownerOf_owned (hnodup : (rows.map id).Nodup) (hnodup' : (rows'.map id).Nodup)
    (heq : (rows'.filter fun r => owner r = o) = rows.filter fun r => owner r = o) :
    ownerOf id owner rows' k = some o ↔ ownerOf id owner rows k = some o := by
  have hsame : ∀ {rows rows' : List ρ}, (rows.map id).Nodup → (rows'.map id).Nodup →
      (rows'.filter fun r => owner r = o) = (rows.filter fun r => owner r = o) →
        ownerOf id owner rows k = some o → ownerOf id owner rows' k = some o := by
    intro rows rows' hnodup hnodup' heq h
    unfold ownerOf
    rw [find?_owned hnodup hnodup' heq h]
    exact h
  exact ⟨hsame hnodup' hnodup heq.symm, hsame hnodup hnodup' heq⟩

end owned
