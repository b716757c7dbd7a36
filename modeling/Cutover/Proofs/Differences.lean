import Cutover.Proofs.Rows
import Cutover.Proofs.Passes

/-!
# The differences of two stores

What a scan has to report is a list of ids and mismatches that is computed row by row. Main
statements: what a pass finds in a page are the differences of its rows (`Scan.Way.mismatches_eq`),
and the differences of both directions together are each id under which the stores differ, once,
with the way in which they do (`Scan.mem_differences`, `Scan.nodup_differences`).
-/

namespace Cutover.Scan

variable {ρ : Type} [Entity ρ]

/-- What a pass has to report of a row, with the rows in which it is looked up. -/
def Way.verdict (way : Way) (others : List ρ) (r : ρ) : Option (Int × Mismatch) :=
  match way, Rows.first? (Entity.id r) others with
  | .baseToTarget, found => (Mismatch.between (some r) found).map (Entity.id r, ·)
  | .targetToBase, none => some (Entity.id r, .baseMissing)
  | .targetToBase, some _ => none

/-- What a pass has to report of rows. -/
def Way.differences (way : Way) (others rows : List ρ) : List (Int × Mismatch) :=
  rows.filterMap (way.verdict others)

/-- What a scan has to report. -/
def differences (base target : List ρ) : List (Int × Mismatch) :=
  Way.baseToTarget.differences target base ++ Way.targetToBase.differences base target

theorem Way.differences_append (way : Way) (others a b : List ρ) :
    way.differences others (a ++ b) = way.differences others a ++ way.differences others b :=
  List.filterMap_append

theorem Way.length_differences_le (way : Way) (others rows : List ρ) :
    (way.differences others rows).length ≤ rows.length :=
  List.length_filterMap_le ..

theorem Way.id_of_mem_verdict {way : Way} {others : List ρ} {r : ρ} {x : Int × Mismatch}
    (h : way.verdict others r = some x) : x.1 = Entity.id r := by
  unfold verdict at h
  split at h
  · obtain ⟨k, -, rfl⟩ := Option.map_eq_some_iff.mp h
    rfl
  · cases h; rfl
  · cases h

/-- What a pass finds in a page are the differences of its rows. -/
theorem Way.mismatches_eq (way : Way) {others : List ρ} (h : Rows.Distinct others)
    (page : List ρ) : way.mismatches page others = way.differences others page := by
  have hid {r : ρ} (hr : r ∈ page) : Entity.id r ∈ page.map Entity.id := List.mem_map_of_mem hr
  cases way with
  | baseToTarget =>
    refine List.filterMap_congr fun r hr => ?_
    rw [last?_ofIds h (hid hr)]
    rfl
  | targetToBase =>
    simp only [mismatches, targetMismatches, differences, ← List.filterMap_eq_filter,
      List.map_filterMap]
    refine List.filterMap_congr fun r hr => ?_
    have hfound : ((Rows.ofIds (page.map Entity.id) others).map Entity.id).contains (Entity.id r) =
        (Rows.first? (Entity.id r) others).isSome := by
      rw [Bool.eq_iff_iff, Rows.first?_isSome_iff, List.contains_iff_mem]
      constructor
      · intro hmem
        obtain ⟨s, hs, hsid⟩ := List.mem_map.mp hmem
        exact List.mem_map.mpr ⟨s, (List.mem_filter.mp hs).1, hsid⟩
      · intro hmem
        obtain ⟨s, hs, hsid⟩ := List.mem_map.mp hmem
        refine List.mem_map.mpr ⟨s, List.mem_filter.mpr ⟨hs, ?_⟩, hsid⟩
        rw [hsid]
        exact List.contains_iff_mem.mpr (hid hr)
    simp only [Option.guard, hfound, verdict]
    cases Rows.first? (Entity.id r) others <;> simp

theorem Way.mem_differences {way : Way} {others rows : List ρ} {x : Int × Mismatch} :
    x ∈ way.differences others rows ↔ ∃ r ∈ rows, way.verdict others r = some x :=
  List.mem_filterMap

/-- The ids that a pass reports are ids of its rows. -/
theorem Way.mem_ids_of_mem {way : Way} {others rows : List ρ} {x : Int × Mismatch}
    (h : x ∈ way.differences others rows) : x.1 ∈ rows.map Entity.id := by
  obtain ⟨r, hr, hx⟩ := mem_differences.mp h
  exact List.mem_map.mpr ⟨r, hr, (id_of_mem_verdict hx).symm⟩

theorem Way.nodup_differences (way : Way) {rows : List ρ} (h : Rows.Distinct rows)
    (others : List ρ) : ((way.differences others rows).map Prod.fst).Nodup := by
  induction rows with
  | nil => exact List.nodup_nil
  | cons r rest ih =>
    obtain ⟨hr, hrest⟩ := List.pairwise_cons.mp h
    unfold differences at ih ⊢
    cases hv : way.verdict others r with
    | none => rw [List.filterMap_cons_none hv]; exact ih hrest
    | some x =>
      rw [List.filterMap_cons_some hv, List.map_cons, List.nodup_cons]
      refine ⟨fun hmem => ?_, ih hrest⟩
      obtain ⟨y, hy, hyx⟩ := List.mem_map.mp hmem
      obtain ⟨s, hs, hsy⟩ := List.mem_map.mp (mem_ids_of_mem hy)
      refine hr s hs ?_
      rw [hsy, hyx, id_of_mem_verdict hv]

theorem mem_differences {base target : List ρ} (hb : Rows.Distinct base)
    (ht : Rows.Distinct target) {id : Int} {k : Mismatch} :
    (id, k) ∈ differences base target ↔
      Mismatch.between (Rows.first? id base) (Rows.first? id target) = some k := by
  rw [differences, List.mem_append, Way.mem_differences, Way.mem_differences]
  constructor
  · rintro (⟨r, hr, hv⟩ | ⟨r, hr, hv⟩)
    · obtain rfl : id = Entity.id r := Way.id_of_mem_verdict hv
      rw [Rows.first?_of_mem hb hr]
      simpa [Way.verdict] using hv
    · obtain rfl : id = Entity.id r := Way.id_of_mem_verdict hv
      rw [Rows.first?_of_mem ht hr]
      unfold Way.verdict at hv
      split at hv
      · contradiction
      · next hnone =>
        cases hv
        rw [hnone]
        rfl
      · cases hv
  · intro hk
    cases hfb : Rows.first? id base with
    | some r =>
      obtain ⟨hr, rfl⟩ := Rows.mem_of_first? hfb
      refine .inl ⟨r, hr, ?_⟩
      rw [hfb] at hk
      simp [Way.verdict, hk]
    | none =>
      cases hft : Rows.first? id target with
      | none => rw [hfb, hft] at hk; cases hk
      | some r =>
        obtain ⟨hr, rfl⟩ := Rows.mem_of_first? hft
        refine .inr ⟨r, hr, ?_⟩
        rw [hfb, hft] at hk
        cases hk
        simp [Way.verdict, hfb]

theorem nodup_differences {base target : List ρ} (hb : Rows.Distinct base)
    (ht : Rows.Distinct target) : (differences base target).Nodup := by
  refine List.Nodup.of_map Prod.fst ?_
  rw [differences, List.map_append]
  refine List.Nodup.append (Way.nodup_differences _ hb _) (Way.nodup_differences _ ht _) ?_
  intro id hforth hback
  obtain ⟨x, hx, rfl⟩ := List.mem_map.mp hforth
  obtain ⟨y, hy, hyx⟩ := List.mem_map.mp hback
  obtain ⟨r, hr, hrv⟩ := Way.mem_differences.mp hy
  -- a row that the way back reports has no row of its id in the base
  have hnone : Rows.first? (Entity.id r) base = none := by
    unfold Way.verdict at hrv
    split at hrv
    · contradiction
    · assumption
    · cases hrv
  obtain ⟨s, hs, hsx⟩ := List.mem_map.mp (Way.mem_ids_of_mem hx)
  refine Rows.first?_eq_none_iff.mp hnone s hs ?_
  rw [hsx, ← hyx, Way.id_of_mem_verdict hrv]

end Cutover.Scan
