/-!
# Finite maps

A map as a list of bindings, one per key, in the order in which the keys were first bound. Main
statements: `get?_put` and `get?_erase`, and `perm_put` for a map in which no key has two bindings.
-/

namespace Cutover

/-- A finite map from `κ` to `υ`. -/
structure Assoc (κ υ : Type) where
  entries : List (κ × υ) := []
  deriving Repr, Inhabited

namespace Assoc

variable {κ υ : Type} [DecidableEq κ]

def empty : Assoc κ υ := ⟨[]⟩

def get? (m : Assoc κ υ) (k : κ) : Option υ := m.entries.lookup k

def getD (m : Assoc κ υ) (k : κ) (d : υ) : υ := (m.get? k).getD d

/-- The bindings with `k` bound to `v`, in its old place if it had one. -/
def putEntries (k : κ) (v : υ) : List (κ × υ) → List (κ × υ)
  | [] => [(k, v)]
  | (k', v') :: rest => if k' = k then (k, v) :: rest else (k', v') :: putEntries k v rest

/-- Binds a key, in place of an earlier binding. -/
def put (m : Assoc κ υ) (k : κ) (v : υ) : Assoc κ υ := ⟨putEntries k v m.entries⟩

/-- Removes the binding of a key. -/
def erase (m : Assoc κ υ) (k : κ) : Assoc κ υ := ⟨m.entries.filter (·.1 ≠ k)⟩

theorem lookup_putEntries (k j : κ) (v : υ) (l : List (κ × υ)) :
    (putEntries k v l).lookup j = if j = k then some v else l.lookup j := by
  induction l with
  | nil =>
    by_cases h : j = k
    · simp [putEntries, h]
    · have hb : (j == k) = false := by simpa using h
      simp [putEntries, List.lookup_cons, h, hb]
  | cons p rest ih =>
    obtain ⟨k', v'⟩ := p
    by_cases hk : k' = k
    · subst hk
      by_cases h : j = k'
      · simp [putEntries, h]
      · have hb : (j == k') = false := by simpa using h
        simp [putEntries, List.lookup_cons, h, hb]
    · by_cases h : j = k'
      · subst h; simp [putEntries, hk]
      · have hb : (j == k') = false := by simpa using h
        simp [putEntries, List.lookup_cons, hk, hb, ih]

theorem get?_put (m : Assoc κ υ) (k j : κ) (v : υ) :
    (m.put k v).get? j = if j = k then some v else m.get? j :=
  lookup_putEntries k j v m.entries

theorem getD_put (m : Assoc κ υ) (k j : κ) (v d : υ) :
    (m.put k v).getD j d = if j = k then v else m.getD j d := by
  by_cases h : j = k <;> simp [getD, get?_put, h]

theorem get?_erase (m : Assoc κ υ) (k j : κ) :
    (m.erase k).get? j = if j = k then none else m.get? j := by
  obtain ⟨l⟩ := m
  simp only [erase, get?]
  induction l with
  | nil => simp
  | cons p rest ih =>
    obtain ⟨k', v⟩ := p
    by_cases hk : k' = k
    · rw [List.filter_cons_of_neg (by simpa using hk), ih]
      by_cases hj : j = k
      · simp [hj]
      · have hb : (j == k') = false := by simpa [hk] using hj
        simp [List.lookup_cons, hj, hb]
    · rw [List.filter_cons_of_pos (by simpa using hk), List.lookup_cons, List.lookup_cons, ih]
      by_cases hj : j = k'
      · simp [hj, hk]
      · have hb : (j == k') = false := by simpa using hj
        simp [hb]

@[simp] theorem get?_empty (k : κ) : (empty : Assoc κ υ).get? k = none := rfl

@[simp] theorem getD_empty (k : κ) (d : υ) : (empty : Assoc κ υ).getD k d = d := rfl

/-! ## One binding per key -/

/-- No key has two bindings. -/
def Distinct (m : Assoc κ υ) : Prop := (m.entries.map Prod.fst).Nodup

theorem putEntries_of_lookup {k : κ} {v : υ} {l : List (κ × υ)} (h : l.lookup k = some v) :
    putEntries k v l = l := by
  induction l with
  | nil => cases h
  | cons p rest ih =>
    obtain ⟨k', v'⟩ := p
    by_cases hk : k' = k
    · subst hk
      rw [List.lookup_cons_self] at h
      cases h
      rw [putEntries, if_pos rfl]
    · have hb : (k == k') = false := by simpa using Ne.symm hk
      rw [List.lookup_cons, hb] at h
      rw [putEntries, if_neg hk, ih h]

theorem filter_eq_self_of_not_mem {k : κ} {l : List (κ × υ)} (h : k ∉ l.map Prod.fst) :
    l.filter (·.1 ≠ k) = l := by
  refine List.filter_eq_self.mpr fun x hx => ?_
  have hne : x.1 ≠ k := fun heq => h (heq ▸ List.mem_map_of_mem hx)
  exact decide_eq_true hne

variable {m : Assoc κ υ}

/-- A binding that is put stands beside those of the other keys. -/
theorem perm_put (h : m.Distinct) (k : κ) (v : υ) :
    (m.put k v).entries.Perm ((k, v) :: (m.erase k).entries) := by
  obtain ⟨l⟩ := m
  change (putEntries k v l).Perm ((k, v) :: l.filter (·.1 ≠ k))
  change (l.map Prod.fst).Nodup at h
  induction l with
  | nil => exact .refl _
  | cons p rest ih =>
    obtain ⟨k', v'⟩ := p
    rw [List.map_cons, List.nodup_cons] at h
    by_cases hk : k' = k
    · subst hk
      rw [putEntries, if_pos rfl, List.filter_cons_of_neg (by simp),
        filter_eq_self_of_not_mem h.1]
    · rw [putEntries, if_neg hk, List.filter_cons_of_pos (by simpa using hk)]
      exact ((ih h.2).cons _).trans (.swap _ _ _)

theorem Distinct.erase (h : m.Distinct) (k : κ) : (m.erase k).Distinct :=
  h.sublist (List.filter_sublist.map Prod.fst)

theorem Distinct.put (h : m.Distinct) (k : κ) (v : υ) : (m.put k v).Distinct := by
  have hkeys := (perm_put h k v).map Prod.fst
  refine hkeys.nodup_iff.mpr (List.nodup_cons.mpr ⟨fun hk => ?_, h.erase k⟩)
  obtain ⟨x, hx, rfl⟩ := List.mem_map.mp hk
  simpa using (List.mem_filter.mp hx).2

/-- A binding that there is stands beside those of the other keys. -/
theorem perm_of_get? (h : m.Distinct) {k : κ} {v : υ} (hk : m.get? k = some v) :
    m.entries.Perm ((k, v) :: (m.erase k).entries) := by
  have hput := perm_put h k v
  rwa [Assoc.put, putEntries_of_lookup hk] at hput

theorem erase_of_get?_eq_none {k : κ} (h : m.get? k = none) : m.erase k = m := by
  refine congrArg Assoc.mk (List.filter_eq_self.mpr fun x hx => ?_)
  have hne := List.lookup_eq_none_iff.mp h x hx
  simpa using Ne.symm (by simpa using hne)

end Assoc

end Cutover
