import Cutover.Scan.Pass
import Mathlib.Data.List.Nodup

/-!
# Rows with different ids

A lookup in rows with different ids finds the row, whatever the order of the rows. A table is
determined by the rows it gives for the ids (`Table.ext_get?`), so putting in a row that is there
and taking out a row that is not there change nothing.
-/

namespace Cutover

variable {ρ : Type} [Entity ρ]

/-! ## Lookups -/

namespace Rows

/-- No two of the rows have the same id. -/
def Distinct (rows : List ρ) : Prop := rows.Pairwise fun a b => Entity.id a ≠ Entity.id b

theorem Distinct.nodup {rows : List ρ} (h : Distinct rows) : (rows.map Entity.id).Nodup :=
  List.pairwise_map.mpr h

theorem Distinct.sublist {rows sub : List ρ} (h : Distinct rows) (hs : sub.Sublist rows) :
    Distinct sub :=
  List.Pairwise.sublist hs h

theorem Distinct.page {rows : List ρ} (h : Distinct rows) (offset limit : Nat) :
    Distinct ((rows.drop offset).take limit) :=
  h.sublist ((List.take_sublist ..).trans (List.drop_sublist ..))

theorem Distinct.eq_of_id_eq {rows : List ρ} (h : Distinct rows) {a b : ρ} (ha : a ∈ rows)
    (hb : b ∈ rows) (hid : Entity.id a = Entity.id b) : a = b :=
  List.inj_on_of_nodup_map h.nodup ha hb hid

theorem mem_of_first? {id : Int} {rows : List ρ} {r : ρ} (h : first? id rows = some r) :
    r ∈ rows ∧ Entity.id r = id := by
  refine ⟨List.mem_of_find?_eq_some h, ?_⟩
  simpa using List.find?_some h

theorem first?_eq_some_iff {id : Int} {rows : List ρ} (h : Distinct rows) {r : ρ} :
    first? id rows = some r ↔ r ∈ rows ∧ Entity.id r = id := by
  refine ⟨mem_of_first?, fun ⟨hr, hid⟩ => ?_⟩
  cases hf : first? id rows with
  | none =>
    have := List.find?_eq_none.mp hf r hr
    simp [hid] at this
  | some s =>
    obtain ⟨hs, hsid⟩ := mem_of_first? hf
    rw [h.eq_of_id_eq hs hr (hsid.trans hid.symm)]

theorem first?_eq_none_iff {id : Int} {rows : List ρ} :
    first? id rows = none ↔ ∀ r ∈ rows, Entity.id r ≠ id := by
  simp [first?]

theorem first?_isSome_iff {id : Int} {rows : List ρ} :
    (first? id rows).isSome ↔ id ∈ rows.map Entity.id := by
  simp [first?, List.find?_isSome]

theorem first?_of_mem {rows : List ρ} (h : Distinct rows) {r : ρ} (hr : r ∈ rows) :
    first? (Entity.id r) rows = some r :=
  (first?_eq_some_iff h).mpr ⟨hr, rfl⟩

/-- Among rows with different ids a lookup does not depend on their order. -/
theorem first?_eq_of_mem_iff {id : Int} {rows rows' : List ρ} (h : Distinct rows)
    (h' : Distinct rows') (hmem : ∀ r, Entity.id r = id → (r ∈ rows ↔ r ∈ rows')) :
    first? id rows = first? id rows' := by
  refine Option.ext fun r => ?_
  rw [first?_eq_some_iff h, first?_eq_some_iff h']
  exact and_congr_left (hmem r)

@[simp] theorem page_whole (offset limit : Nat) (rows : List ρ) :
    page ⟨offset, limit, none⟩ rows = (rows.drop offset).take limit := by
  have : view none rows = rows := by simp [view, isSince]
  rw [page, this]

end Rows

/-! ## What a pass looks up -/

namespace Scan

theorem dedup_of_distinct {rows : List ρ} (h : Rows.Distinct rows) : dedup rows = rows := by
  induction rows with
  | nil => rfl
  | cons r rest ih =>
    obtain ⟨hr, hrest⟩ := List.pairwise_cons.mp h
    rw [dedup, ih hrest, List.filter_eq_self.mpr]
    intro s hs
    simpa using (hr s hs).symm

theorem last?_ofIds {id : Int} {ids : List Int} {rows : List ρ} (h : Rows.Distinct rows)
    (hid : id ∈ ids) : last? id (Rows.ofIds ids rows) = Rows.first? id rows := by
  have hsub : Rows.Distinct (Rows.ofIds ids rows) := h.sublist List.filter_sublist
  have hrev : Rows.Distinct (Rows.ofIds ids rows).reverse := by
    refine List.pairwise_reverse.mpr (hsub.imp fun {a b} hab => ?_)
    exact Ne.symm hab
  refine Rows.first?_eq_of_mem_iff hrev h fun r hr => ?_
  simp [Rows.ofIds, hr, hid]

end Scan

/-! ## Tables -/

namespace Table

theorem distinct (t : Table ρ) : Rows.Distinct t.rows :=
  t.ascending.imp fun {_ _} h => Int.ne_of_lt h

theorem get?_eq_some_iff {t : Table ρ} {id : Int} {r : ρ} :
    t.get? id = some r ↔ r ∈ t.rows ∧ Entity.id r = id := by
  rw [get?_eq_first?]
  exact Rows.first?_eq_some_iff t.distinct

theorem get?_isSome_iff {t : Table ρ} {id : Int} :
    (t.get? id).isSome ↔ id ∈ t.rows.map Entity.id := by
  rw [get?_eq_first?, Rows.first?_isSome_iff]

/-- A row is under no key but its own id. -/
theorem id_of_get? (t : Table ρ) {k : Int} {r : ρ} (h : t.get? k = some r) : k = Entity.id r :=
  (get?_eq_some_iff.mp h).2.symm

theorem mem_entries_iff (t : Table ρ) (k : Int) (r : ρ) :
    (k, r) ∈ t.entries ↔ t.get? k = some r := by
  rw [get?_eq_some_iff]
  constructor
  · intro h
    have hid : k = Entity.id r := t.keyed _ h
    exact ⟨List.mem_map_of_mem h, hid.symm⟩
  · rintro ⟨h, rfl⟩
    obtain ⟨⟨k, s⟩, he, rfl⟩ := List.mem_map.mp h
    have hid : k = Entity.id s := t.keyed _ he
    exact hid ▸ he

theorem get?_of_mem {t : Table ρ} {r : ρ} (h : r ∈ t.rows) : t.get? (Entity.id r) = some r :=
  get?_eq_some_iff.mpr ⟨h, rfl⟩

/-- Lists with ascending ids that have the same rows are the same. -/
theorem rows_eq_of_mem_iff {a b : List ρ}
    (ha : a.Pairwise fun r s => Entity.id r < Entity.id s)
    (hb : b.Pairwise fun r s => Entity.id r < Entity.id s) (h : ∀ r, r ∈ a ↔ r ∈ b) : a = b := by
  have nodup {l : List ρ} (hl : l.Pairwise fun r s => Entity.id r < Entity.id s) : l.Nodup :=
    hl.imp fun {_ _} hlt heq => by subst heq; exact absurd hlt (Int.lt_irrefl _)
  have hperm : a.Perm b := (List.perm_ext_iff_of_nodup (nodup ha) (nodup hb)).mpr h
  refine hperm.eq_of_pairwise (fun r s _ _ hrs hsr => ?_) ha hb
  exact absurd hrs (Int.lt_asymm hsr)

theorem ext_rows {t u : Table ρ} (h : t.rows = u.rows) : t = u := by
  have hkeys : t.keys = u.keys := by rw [keys_eq, keys_eq, h]
  have hentries : t.entries = u.entries := by
    rw [← List.zip_unzip t.entries, ← List.zip_unzip u.entries, List.unzip_eq_map,
      List.unzip_eq_map]
    exact congrArg₂ List.zip hkeys h
  cases t
  cases u
  cases hentries
  rfl

theorem ext_get? {t u : Table ρ} (h : ∀ id, t.get? id = u.get? id) : t = u := by
  refine ext_rows (rows_eq_of_mem_iff t.ascending u.ascending fun r => ?_)
  have := h (Entity.id r)
  constructor
  · intro hr
    exact (get?_eq_some_iff.mp (this ▸ get?_of_mem hr)).1
  · intro hr
    exact (get?_eq_some_iff.mp (this.symm ▸ get?_of_mem hr)).1

theorem rows_erase (t : Table ρ) (id : Int) : (t.erase id).rows = Rows.without id t.rows := by
  rw [rows, erase, Rows.without, rows, List.filter_map]
  refine congrArg _ (List.filter_congr fun e he => ?_)
  simp [t.keyed e he, bne]
  rfl

/-- A row that is put in leaves the rows of other ids as they are. -/
theorem without_insert (t : Table ρ) (r : ρ) :
    Rows.without (Entity.id r) (t.insert r).rows = Rows.without (Entity.id r) t.rows := by
  rw [← rows_erase, ← rows_erase]
  refine congrArg rows (ext_get? fun id => ?_)
  rw [get?_erase, get?_erase, get?_insert]
  split <;> simp_all

/-- A row with an id above all others comes in behind them. -/
theorem rows_insert_above {t : Table ρ} {r : ρ}
    (h : ∀ s ∈ t.rows, Entity.id s < Entity.id r) : (t.insert r).rows = t.rows ++ [r] := by
  have put {l : List (Int × ρ)} (h : ∀ e ∈ l, e.1 < Entity.id r) :
      putEntries (Entity.id r) r l = l ++ [(Entity.id r, r)] := by
    induction l with
    | nil => rfl
    | cons e rest ih =>
      obtain ⟨he, hrest⟩ := List.forall_mem_cons.mp h
      rw [putEntries, if_neg (Int.lt_asymm he), if_neg (Int.ne_of_gt he), ih hrest]
      rfl
  have hentries : ∀ e ∈ t.entries, e.1 < Entity.id r := fun e he =>
    t.keyed e he ▸ h e.2 (List.mem_map_of_mem he)
  change (putEntries (Entity.id r) r t.entries).map Prod.snd = _
  rw [put hentries, List.map_append]
  rfl

end Table

end Cutover
