import Cutover.Proofs.Repairs
import Mathlib.Data.List.Count
import Mathlib.Data.List.Perm.Subperm

/-!
# Places of rows

The place of a row in a table is the number of rows with smaller ids, of which the base has some
(`Table.shared`) and has not the others (`Table.extra`). While the table is mended, the first number
never gets smaller and the second never gets larger. Main statement: when the second number never
decides on which page a row is (`Table.KeepsPages`), no row moves to a page before those that are
still to be read (`Table.KeepsPages.le_shared`).
-/

namespace Cutover.Table

variable {ρ : Type} [Entity ρ]

/-- How many rows have an id smaller than `x`. -/
def rank (t : Table ρ) (x : Int) : Nat := t.rows.countP fun r => Entity.id r < x

/-- How many rows have an id smaller than `x` of which `b` has a row too. -/
def shared (b t : Table ρ) (x : Int) : Nat :=
  t.rows.countP fun r => Entity.id r < x ∧ (b.get? (Entity.id r)).isSome

/-- How many rows have an id smaller than `x` of which `b` has no row. -/
def extra (b t : Table ρ) (x : Int) : Nat :=
  t.rows.countP fun r => Entity.id r < x ∧ b.get? (Entity.id r) = none

variable {b t t' t₀ : Table ρ} {x : Int}

theorem rank_eq (b t : Table ρ) (x : Int) : t.rank x = b.shared t x + b.extra t x := by
  unfold rank shared extra
  rw [List.countP_eq_countP_filter_add t.rows _ fun r => (b.get? (Entity.id r)).isSome,
    List.countP_filter, List.countP_filter]
  congr 1
  · refine List.countP_congr fun r _ => by simp
  · refine List.countP_congr fun r _ => by simp

/-- A table with all the wanted ids of another but some has at most so many fewer rows with a wanted
id. -/
theorem countP_le (t t' : Table ρ) (wanted : Int → Bool) (ids : List Int)
    (h : ∀ id, wanted id = true → (t.get? id).isSome → id ∈ ids ∨ (t'.get? id).isSome) :
    t.rows.countP (fun r => wanted (Entity.id r)) ≤
      ids.length + t'.rows.countP fun r => wanted (Entity.id r) := by
  have count (u : Table ρ) : u.rows.countP (fun r => wanted (Entity.id r)) =
      ((u.rows.filter fun r => wanted (Entity.id r)).map Entity.id).length := by
    rw [List.length_map, List.countP_eq_length_filter]
  rw [count, count, ← List.length_append]
  refine (List.subperm_of_subset (t.distinct.sublist List.filter_sublist).nodup ?_).length_le
  intro id hid
  obtain ⟨r, hr, rfl⟩ := List.mem_map.mp hid
  obtain ⟨hr, hwanted⟩ := List.mem_filter.mp hr
  rcases h (Entity.id r) hwanted (by rw [get?_of_mem hr]; rfl) with hmem | hsome
  · exact List.mem_append_left _ hmem
  · obtain ⟨s, hs⟩ := Option.isSome_iff_exists.mp hsome
    obtain ⟨hs, hsid⟩ := get?_eq_some_iff.mp hs
    exact List.mem_append_right _
      (List.mem_map.mpr ⟨s, List.mem_filter.mpr ⟨hs, by rwa [hsid]⟩, hsid⟩)

theorem shared_le_rank (b t : Table ρ) (x : Int) : b.shared t x ≤ b.rank x := by
  have h := countP_le t b (fun id => decide (id < x ∧ (b.get? id).isSome)) [] fun id hid _ =>
    .inr (of_decide_eq_true hid).2
  rw [List.length_nil, Nat.zero_add] at h
  refine Nat.le_trans h (List.countP_mono_left fun r _ hr => ?_)
  simpa using (of_decide_eq_true hr).1

/-- A table with all the ids of the base has before `x` as many rows of the base as the base has. -/
theorem rank_le_shared (h : ∀ id, (b.get? id).isSome → (t.get? id).isSome) (x : Int) :
    b.rank x ≤ b.shared t x := by
  have hle := countP_le b t (fun id => decide (id < x ∧ (b.get? id).isSome)) [] fun id _ hsome =>
    .inr (h id hsome)
  rw [List.length_nil, Nat.zero_add] at hle
  refine Nat.le_trans (List.countP_mono_left fun r hr hlt => ?_) hle
  simpa [get?_of_mem hr] using hlt

theorem shared_mono {y : Int} (hxy : x ≤ y) (b t : Table ρ) : b.shared t x ≤ b.shared t y := by
  refine List.countP_mono_left fun r _ hr => ?_
  obtain ⟨hlt, hsome⟩ := of_decide_eq_true hr
  simpa using ⟨Int.lt_of_lt_of_le hlt hxy, hsome⟩

/-- A table that has all that another has of the base has at least as many of these rows. -/
theorem shared_le (h : ∀ id, (b.get? id).isSome → (t.get? id).isSome → (t'.get? id).isSome)
    (x : Int) : b.shared t x ≤ b.shared t' x := by
  have hle := countP_le t t' (fun id => decide (id < x ∧ (b.get? id).isSome)) [] fun id hid hsome =>
    .inr (h id (of_decide_eq_true hid).2 hsome)
  rwa [List.length_nil, Nat.zero_add] at hle

theorem Mended.shared_le (h : b.Mended t t') (x : Int) : b.shared t x ≤ b.shared t' x := by
  refine Table.shared_le (fun id hid hsome => ?_) x
  rcases h id with heq | heq
  · rwa [heq]
  · rwa [heq]

/-- To mend one id is to put in no more than one row of the base. -/
theorem shared_mend_le (b t : Table ρ) (id x : Int) :
    b.shared (b.mend id t) x ≤ b.shared t x + 1 := by
  have hle := countP_le (b.mend id t) t (fun j => decide (j < x ∧ (b.get? j).isSome)) [id]
    fun j _ hsome => by
      rw [get?_mend] at hsome
      split at hsome
      · next heq => exact .inl (List.mem_singleton.mpr heq)
      · exact .inr hsome
  rwa [List.length_singleton, Nat.add_comm] at hle

/-- A table that has all that the base has not of another has at least as many of these rows. -/
theorem extra_le (h : ∀ id, b.get? id = none → (t.get? id).isSome → (t'.get? id).isSome) (x : Int) :
    b.extra t x ≤ b.extra t' x := by
  have hle := countP_le t t' (fun id => decide (id < x ∧ b.get? id = none)) [] fun id hid hsome =>
    .inr (h id (of_decide_eq_true hid).2 hsome)
  rwa [List.length_nil, Nat.zero_add] at hle

theorem Mended.extra_le (h : b.Mended t t') (x : Int) : b.extra t' x ≤ b.extra t x := by
  refine Table.extra_le (fun id hid hsome => ?_) x
  rcases h id with heq | heq
  · rw [heq, hid] at hsome
    cases hsome
  · rwa [← heq]

/-- A mended table has no more rows than the two tables of which it has rows. -/
theorem Mended.length_le (h : b.Mended t₀ t) : t.rows.length ≤ b.rows.length + t₀.rows.length := by
  have hle := countP_le t t₀ (fun _ => true) (b.rows.map Entity.id) fun id _ hsome => by
    rcases h id with heq | heq
    · rw [heq] at hsome
      exact .inl (get?_isSome_iff.mp hsome)
    · exact .inr (heq ▸ hsome)
  simpa using hle

/-- Of the rows that the base has not one is the first. -/
theorem exists_extra_eq_zero (hx : (t.get? x).isSome) (hb : b.get? x = none) :
    ∃ y ≤ x, (t.get? y).isSome ∧ b.get? y = none ∧ b.extra t y = 0 := by
  obtain ⟨r, hrow⟩ := Option.isSome_iff_exists.mp hx
  obtain ⟨hr, rfl⟩ := get?_eq_some_iff.mp hrow
  have hsome : (t.rows.find? fun s => (b.get? (Entity.id s)).isNone).isSome :=
    List.find?_isSome.mpr ⟨r, hr, by simp [hb]⟩
  obtain ⟨s, hs⟩ := Option.isSome_iff_exists.mp hsome
  obtain ⟨hnone, before, behind, hrows, hbefore⟩ := List.find?_eq_some_iff_append.mp hs
  have hascending := t.ascending
  rw [hrows] at hascending hr
  obtain ⟨-, hbehind, hlt⟩ := List.pairwise_append.mp hascending
  have hbehind := (List.pairwise_cons.mp hbehind).1
  refine ⟨Entity.id s, ?_, ?_, by simpa using hnone, List.countP_eq_zero.mpr fun q hq => ?_⟩
  · rcases List.mem_append.mp hr with hr | hr
    · have := hbefore r hr
      simp [hb] at this
    · rcases List.mem_cons.mp hr with rfl | hr
      · exact Int.le_refl _
      · exact Int.le_of_lt (hbehind r hr)
  · rw [get?_of_mem (List.mem_of_find?_eq_some hs)]
    rfl
  · rw [hrows] at hq
    rcases List.mem_append.mp hq with hq | hq
    · have := hbefore q hq
      intro hextra
      simp [(of_decide_eq_true hextra).2] at this
    · rcases List.mem_cons.mp hq with rfl | hq
      · simp
      · have := hbehind q hq
        simp only [decide_eq_true_eq, not_and]
        omega

/-! ## Pages -/

/-- The place of a row. -/
theorem getElem?_rank {l : List ρ} (h : l.Pairwise fun a b => Entity.id a < Entity.id b) {r : ρ}
    (hr : r ∈ l) : l[l.countP fun s => Entity.id s < Entity.id r]? = some r := by
  induction l with
  | nil => cases hr
  | cons s rest ih =>
    obtain ⟨hs, hrest⟩ := List.pairwise_cons.mp h
    rcases List.mem_cons.mp hr with rfl | hr
    · have hnone : rest.countP (fun s => decide (Entity.id s < Entity.id r)) = 0 :=
        List.countP_eq_zero.mpr fun s hmem => by simpa using Int.le_of_lt (hs s hmem)
      simp [hnone]
    · rw [List.countP_cons_of_pos (by simpa using hs r hr)]
      exact ih hrest hr

theorem mem_page_of_rank {offset limit : Nat} {r : ρ} (hr : r ∈ t.rows)
    (hle : offset ≤ t.rank (Entity.id r)) (hlt : t.rank (Entity.id r) < offset + limit) :
    r ∈ (t.rows.drop offset).take limit := by
  refine List.mem_of_getElem? (i := t.rank (Entity.id r) - offset) ?_
  rw [List.getElem?_take_of_lt (by omega), List.getElem?_drop, Nat.add_sub_cancel' hle]
  exact getElem?_rank t.ascending hr

/-- The rows behind an offset have no smaller place. -/
theorem le_rank_of_mem_drop {offset : Nat} {r : ρ} (hr : r ∈ t.rows.drop offset) :
    offset ≤ t.rank (Entity.id r) := by
  have hascending := t.ascending
  rw [← List.take_append_drop offset t.rows] at hascending
  obtain ⟨-, -, hlt⟩ := List.pairwise_append.mp hascending
  have hlength := List.length_pos_of_mem hr
  rw [List.length_drop] at hlength
  have hall : (t.rows.take offset).countP (fun s => decide (Entity.id s < Entity.id r)) =
      offset := by
    rw [List.countP_eq_length.mpr fun s hs => by simpa using hlt s hs r hr, List.length_take]
    omega
  calc offset = (t.rows.take offset).countP _ := hall.symm
    _ ≤ t.rank (Entity.id r) := (List.take_sublist offset t.rows).countP_le

/-- The rows before an offset have a smaller place. -/
theorem rank_lt_of_mem_take {offset : Nat} {r : ρ} (hr : r ∈ t.rows.take offset) :
    t.rank (Entity.id r) < offset := by
  have hascending := t.ascending
  rw [← List.take_append_drop offset t.rows] at hascending
  obtain ⟨-, -, hlt⟩ := List.pairwise_append.mp hascending
  have hbehind : (t.rows.drop offset).countP (fun s => decide (Entity.id s < Entity.id r)) = 0 :=
    List.countP_eq_zero.mpr fun s hs => by simpa using Int.le_of_lt (hlt r hr s hs)
  have hbefore : (t.rows.take offset).countP (fun s => decide (Entity.id s < Entity.id r)) <
      (t.rows.take offset).length :=
    List.countP_lt_length_iff.mpr ⟨r, hr, by simp⟩
  rw [rank, ← List.take_append_drop offset t.rows, List.countP_append, hbehind, Nat.add_zero]
  exact Nat.lt_of_lt_of_le hbefore (List.length_take_le ..)

theorem rank_lt_length {r : ρ} (hr : r ∈ t.rows) : t.rank (Entity.id r) < t.rows.length :=
  (List.getElem?_eq_some_iff.mp (getElem?_rank t.ascending hr)).1

/-- Each row of `t` that `b` has not is on the page on which it would be without the others before
it that `b` has not, however many of the rows of `b` before it have been put in. -/
def KeepsPages (batch : Nat) (b t : Table ρ) : Prop :=
  ∀ r ∈ t.rows, b.get? (Entity.id r) = none → ∀ n, n ≤ b.rank (Entity.id r) →
    b.shared t (Entity.id r) ≤ n → (n + b.extra t (Entity.id r)) / batch = n / batch

instance (batch : Nat) (b t : Table ρ) : Decidable (KeepsPages batch b t) :=
  inferInstanceAs (Decidable (∀ r ∈ t.rows, b.get? (Entity.id r) = none → ∀ n, n ≤ _ → _ → _))

theorem KeepsPages.le_shared {batch : Nat} (h : KeepsPages batch b t₀) (hm : b.Mended t₀ t)
    (hx : (t.get? x).isSome) (hb : b.get? x = none) {offset : Nat} (hdvd : batch ∣ offset)
    (hle : offset ≤ t.rank x) : offset ≤ b.shared t x := by
  obtain ⟨r, hr, rfl⟩ : ∃ r ∈ t₀.rows, Entity.id r = x := by
    rcases hm x with heq | heq
    · rw [heq, hb] at hx
      cases hx
    · obtain ⟨r, hr⟩ := Option.isSome_iff_exists.mp hx
      exact ⟨r, get?_eq_some_iff.mp (heq ▸ hr)⟩
  have hpages := h r hr hb (b.shared t (Entity.id r)) (shared_le_rank ..) (hm.shared_le _)
  have hextra := hm.extra_le (Entity.id r)
  rw [rank_eq b] at hle
  obtain ⟨q, rfl⟩ := hdvd
  rcases Nat.eq_zero_or_pos batch with rfl | hbatch
  · simp
  · have hq : q ≤ (b.shared t (Entity.id r) + b.extra t₀ (Entity.id r)) / batch := by
      rw [Nat.le_div_iff_mul_le hbatch, Nat.mul_comm]
      omega
    rw [hpages, Nat.le_div_iff_mul_le hbatch] at hq
    rwa [Nat.mul_comm]

end Cutover.Table
