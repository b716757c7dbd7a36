import Cutover.CommandLine
import Cutover.Setting
import Cutover.Proofs.Forms

/-!
# Saved configurations

A configuration is read back from its written form, but for what its durations have below a
millisecond (`Config.saved`), and a file holds no configuration that would not be read back as it is
(`Config.Fits`). Main statements: files hold what fits and is valid, and a configuration that was
read is written and read again (`Config.load_shown`); and what settings make of the defaults, once
it is saved, is valid unless a timeout is written as zero (`Config.valid_saved_iff`).
-/

namespace Cutover

namespace Duration

/-- Whether a duration is read back from the number that it is written as. -/
def IsWritten (d : Duration) : Prop := .ofMillis d.written = d

theorem written_lt (d : Duration) : d.written < UInt64.size := Nat.mod_lt _ (by decide)

theorem isWritten_ofMillis {ms : Nat} (h : ms < UInt64.size) : (ofMillis ms).IsWritten :=
  congrArg ofMillis (written_ofMillis h)

end Duration

namespace Config

open Json

variable {c : Config}

/-! ## What can be written -/

/-- Whether the sizes of a configuration have 64 bits. -/
structure Sized (c : Config) : Prop where
  batch : c.batchSize < UInt64.size
  failures : c.maxConsecutiveFailures < UInt64.size

/-- Whether a configuration is read back as it is. -/
structure Fits (c : Config) : Prop extends c.Sized where
  call : c.callTimeout.IsWritten
  fix : c.fixTimeout.IsWritten
  backoff : c.redeliveryBackoff.IsWritten

/-- What a configuration is read back as. -/
def saved (c : Config) : Config :=
  { c with
    callTimeout := .ofMillis c.callTimeout.written
    fixTimeout := .ofMillis c.fixTimeout.written
    redeliveryBackoff := .ofMillis c.redeliveryBackoff.written }

theorem Fits.saved_eq (h : c.Fits) : c.saved = c := by
  obtain ⟨-, hcall, hfix, hbackoff⟩ := h
  rw [saved, hcall, hfix, hbackoff]

theorem fits_default : ({} : Config).Fits :=
  ⟨⟨by decide, by decide⟩, rfl, rfl, rfl⟩

theorem Sized.set (h : c.Sized) (setting : Setting) : (c.set setting).Sized := by
  cases setting with
  | batchSize rows => exact ⟨rows.toNat_lt, h.failures⟩
  | maxConsecutiveFailures pages => exact ⟨h.batch, pages.toNat_lt⟩
  | _ => exact ⟨h.batch, h.failures⟩

theorem sized_ofSettings (settings : List Setting) : (ofSettings settings).Sized :=
  List.foldlRecOn settings set fits_default.toSized fun _ h setting _ => h.set setting

/-! ## Reading what was written -/

theorem duration_gives (d : Duration) :
    duration.Gives (Printer.nat d.written) (.ofMillis d.written) :=
  (Reader.nat64_gives d.written_lt).map Duration.ofMillis

/-- The members of the written form set all fields. -/
theorem Sized.sets (h : c.Sized) : Record.Sets record.fields [] record.blank c.members c.saved := by
  refine .cons (i := 0) rfl rfl (Field.gives (Reader.nat64_gives h.batch)) ?_
  refine .cons (i := 1) rfl rfl (Field.gives (duration_gives _)) ?_
  refine .cons (i := 2) rfl rfl (Field.gives (duration_gives _)) ?_
  refine .cons (i := 3) rfl rfl (Field.gives (Reader.text_gives _)) ?_
  refine .cons (i := 4) rfl rfl (Field.gives (Reader.text_gives _)) ?_
  refine .cons (i := 5) rfl rfl (Field.gives (Reader.text_gives _)) ?_
  refine .cons (i := 6) rfl rfl (Field.gives (Reader.text_gives _)) ?_
  refine .cons (i := 7) rfl rfl (Field.gives (Reader.nat64_gives h.failures)) ?_
  refine .cons (i := 8) rfl rfl (Field.gives (duration_gives _)) ?_
  refine .cons (i := 9) rfl rfl (Field.gives (Reader.bool_gives _)) ?_
  exact .nil rfl

theorem decode?_eq_some_iff {bs : Bytes} :
    decode? bs = some c ↔ Reader.decode record.read bs = .ok c := by
  unfold decode?
  cases Reader.decode record.read bs <;> simp [Except.toOption]

theorem decode?_encode (h : c.Sized) : decode? c.encode = some c.saved :=
  decode?_eq_some_iff.mpr (Record.decode_compact h.sets)

theorem isText_members (c : Config) : ∀ m ∈ c.members, Bytes.IsText m.2 := by
  simp only [members, List.forall_mem_cons, List.not_mem_nil, false_implies, implies_true, and_true,
    Printer.isText_nat, Printer.isText_text, Printer.isText_bool]

theorem load_eq_ok_iff {content : Option Bytes} :
    load content = .ok c ↔
      ∃ bs, content = some bs ∧ (Bytes.toText? bs).isSome = true ∧ decode? bs = some c ∧
        c.validate = .ok () := by
  have hvalid {c' : Config} : c'.validate = .ok () ↔ c'.defect? = none := by
    unfold validate
    cases c'.defect? <;> simp
  unfold load
  constructor
  · intro h
    split at h
    · cases h
    · next bs hbs =>
      obtain ⟨hcontent, htext⟩ := Option.filter_eq_some_iff.mp hbs
      split at h
      · cases h
      · next c' hread =>
        split at h
        · next hnone =>
          cases h
          exact ⟨bs, hcontent, htext, hread, hvalid.mpr hnone⟩
        · cases h
  · rintro ⟨bs, rfl, htext, hread, h⟩
    rw [Option.filter_some, if_pos htext]
    simp only [hread, hvalid.mp h]

/-- A file holds what fits and is valid, in any layout. -/
theorem Fits.load_object (h : c.Fits) (hvalid : c.validate = .ok ()) (l : Layout) {tail : Bytes}
    (htail : ∀ b ∈ tail, isBlank b = true) : load (some (l.object c.members ++ tail)) = .ok c := by
  have htext : Bytes.IsText (l.object c.members ++ tail) :=
    (Layout.isText_object c.isText_members).append (isText_blank htail)
  refine load_eq_ok_iff.mpr ⟨_, rfl, htext.isSome, ?_, hvalid⟩
  rw [decode?_eq_some_iff, Record.decode_object h.sets l htail, h.saved_eq]

/-! ## What is read -/

theorem duration_isWritten {d : Duration} {bs rest : Bytes} (h : duration bs = .ok (d, rest)) :
    d.IsWritten := by
  obtain ⟨⟨ms, after⟩, hread, heq⟩ := ok_of_map h
  cases heq
  exact Duration.isWritten_ofMillis (Reader.nat64_lt hread)

/-- A configuration that is read fits. -/
theorem fits_of_decode? {bs : Bytes} (h : decode? bs = some c) : c.Fits := by
  refine Record.keeps_of_decode ?_ fits_default (decode?_eq_some_iff.mp h)
  simp only [record, List.forall_mem_cons, List.not_mem_nil, false_implies, implies_true, and_true]
  have hsame {α : Type} {r : Reader α} {name : String} {set : α → Config → Config}
      (hset : ∀ a c, c.Fits → (set a c).Fits) : (Field.of name false r set).Keeps Fits :=
    Field.keeps_of fun _ a _ _ c h => hset a c h
  refine ⟨?_, ?_, ?_, hsame ?_, hsame ?_, hsame ?_, hsame ?_, ?_, ?_, hsame ?_⟩
  · exact Field.keeps_of fun _ _ _ hread _ h => { h with batch := Reader.nat64_lt hread }
  · exact Field.keeps_of fun _ _ _ hread _ h => { h with call := duration_isWritten hread }
  · exact Field.keeps_of fun _ _ _ hread _ h => { h with fix := duration_isWritten hread }
  · exact fun _ _ h => { h with }
  · exact fun _ _ h => { h with }
  · exact fun _ _ h => { h with }
  · exact fun _ _ h => { h with }
  · exact Field.keeps_of fun _ _ _ hread _ h => { h with failures := Reader.nat64_lt hread }
  · exact Field.keeps_of fun _ _ _ hread _ h => { h with backoff := duration_isWritten hread }
  · exact fun _ _ h => { h with }

/-! ## Files -/

theorem Fits.load_encode (h : c.Fits) (hvalid : c.validate = .ok ()) :
    load (some c.encode) = .ok c := by
  have hload := h.load_object hvalid .compact (List.forall_mem_nil _)
  rwa [List.append_nil, ← Layout.object_compact] at hload

/-- Files hold the configurations that fit and are valid, and no others. -/
theorem exists_load_iff : (∃ content, load content = .ok c) ↔ c.Fits ∧ c.validate = .ok () := by
  constructor
  · rintro ⟨content, hload⟩
    obtain ⟨bs, -, -, hread, hvalid⟩ := load_eq_ok_iff.mp hload
    exact ⟨fits_of_decode? hread, hvalid⟩
  · rintro ⟨hfits, hvalid⟩
    exact ⟨_, hfits.load_encode hvalid⟩

/-- Files hold all that fits and is valid, and nothing else; and what was read from a file is read
again from its compact written form, and from what is shown of that file. -/
theorem load_shown (c : Config) :
    ((∃ content, load content = .ok c) ↔ c.Fits ∧ c.validate = .ok ()) ∧
      ∀ content, load content = .ok c →
        load (some c.encode) = .ok c ∧
          ∀ file, ∃ text,
            (CommandLine.Command.printConfig (some file)).outcome content = .shown text ∧
              load (some text) = .ok c := by
  refine ⟨exists_load_iff, fun content h => ?_⟩
  obtain ⟨hfits, hvalid⟩ := exists_load_iff.mp ⟨content, h⟩
  refine ⟨hfits.load_encode hvalid, fun file => ⟨c.encodeLines ++ [10], ?_, ?_⟩⟩
  · simp only [CommandLine.Command.outcome, CommandLine.Command.config, CommandLine.Command.file?,
      h]
  · rw [encodeLines, members, Layout.object_byLine, ← members]
    exact hfits.load_object hvalid .byLine (by simp [isBlank])

/-- Quotes, escapes, controls and other alphabets in the names, and the largest numbers there
are. -/
theorem load_shown_sample :
    let c : Config :=
      { batchSize := UInt64.size - 1
        callTimeout := .ofMillis (UInt64.size - 1)
        inconsistencyTopic := "\"\\\n\u0000"
        fixGroup := "ремонт 修理 🔧" }
    load (some c.encode) = .ok c ∧
      ∃ text, (CommandLine.Command.printConfig (some "migrator.json")).outcome (some c.encode) =
          .shown text ∧
        load (some text) = .ok c := by
  intro c
  have hfits : c.Fits :=
    ⟨⟨by decide, by decide⟩, Duration.isWritten_ofMillis (by decide), fits_default.fix,
      fits_default.backoff⟩
  have hvalid : c.validate = .ok () := by decide +kernel
  have hload : load (some c.encode) = .ok c := hfits.load_encode hvalid
  exact ⟨hload, ((load_shown c).2 _ hload).2 "migrator.json"⟩

/-! ## Settings -/

/-- A valid configuration is saved as a valid one unless a timeout is written as zero. -/
theorem validate_saved_iff (h : c.validate = .ok ()) :
    c.saved.validate = .ok () ↔ c.callTimeout.written ≠ 0 ∧ c.fixTimeout.written ≠ 0 := by
  rw [validate_eq_ok_iff] at h
  have hzero (d : Duration) : (Duration.ofMillis d.written).isZero = false ↔ d.written ≠ 0 := by
    rw [Duration.isZero_ofMillis, beq_eq_false_iff_ne]
  rw [validate_eq_ok_iff]
  constructor
  · exact fun hsaved => ⟨(hzero _).mp (hsaved .callTimeout), (hzero _).mp (hsaved .fixTimeout)⟩
  · rintro ⟨hcall, hfix⟩ d
    cases d with
    | callTimeout => exact (hzero _).mpr hcall
    | fixTimeout => exact (hzero _).mpr hfix
    | batchSize => exact h .batchSize
    | maxConsecutiveFailures => exact h .maxConsecutiveFailures
    | inconsistencyTopic => exact h .inconsistencyTopic
    | changeTopic => exact h .changeTopic
    | fixGroup => exact h .fixGroup
    | changeGroup => exact h .changeGroup

/-- Any valid configuration that settings make is read back from its written form with its durations
cut to milliseconds, and it is still valid unless the number written for a timeout is zero. -/
theorem valid_saved_iff (settings : List Setting)
    (hvalid : (ofSettings settings).validate = .ok ()) :
    decode? (ofSettings settings).encode = some (ofSettings settings).saved ∧
      ((ofSettings settings).saved.validate = .ok () ↔
        (ofSettings settings).callTimeout.written ≠ 0 ∧
        (ofSettings settings).fixTimeout.written ≠ 0) :=
  ⟨decode?_encode (sized_ofSettings settings), validate_saved_iff hvalid⟩

/-- Timeouts of a millisecond and a half and of a whole day. -/
theorem valid_saved_iff_sample :
    let settings : List Setting :=
      [.callTimeout ⟨1500000⟩, .fixTimeout (.ofSecondsNanos 86400 0), .batchSize 7,
        .changeTopic "rows"]
    (ofSettings settings).validate = .ok () ∧
      decode? (ofSettings settings).encode = some (ofSettings settings).saved ∧
      (ofSettings settings).saved.validate = .ok () := by
  intro settings
  have hvalid : (ofSettings settings).validate = .ok () := by decide +kernel
  obtain ⟨hread, hiff⟩ := valid_saved_iff settings hvalid
  exact ⟨hvalid, hread, hiff.mpr ⟨by decide, by decide⟩⟩

/-- A timeout of one nanosecond is valid, and what it is saved as is not. -/
theorem nanosecond_saved_invalid :
    let c := ofSettings [.callTimeout ⟨1⟩]
    c.validate = .ok () ∧ ¬∃ saved, decode? c.encode = some saved ∧ saved.validate = .ok () := by
  intro c
  refine ⟨by decide +kernel, ?_⟩
  rintro ⟨saved, hread, hvalid⟩
  rw [decode?_encode (sized_ofSettings _), Option.some.injEq] at hread
  subst hread
  revert hvalid
  decide +kernel

end Config

end Cutover
