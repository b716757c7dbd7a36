import Cutover.Event
import Cutover.Proofs.Members

/-!
# Messages are read back

A report of a row with an id of 64 bits is read back (`Report.decode?_encode`), and so is a notice
of one (`Change.decode?_encode`). Neither kind is taken for the other, and what a report is read as
does not depend on how its members are ordered and spaced, nor on members of other names. Main
statement: `wire_format`.
-/

namespace Cutover

open Json

/-! ## Change notices -/

namespace Change

/-- A written notice is read back. -/
theorem decode?_encode {c : Change} (h : IsSmall c.id) : decode? c.encode = some c := by
  have hsets : Record.Sets record.fields [] record.blank [("id", Printer.int c.id)] c :=
    .cons (i := 0) rfl rfl (Field.gives (Reader.int64_gives h)) (.nil rfl)
  rw [decode?, encode, Record.decode_compact hsets]
  rfl

theorem owns_record (name : String) : record.Owns name = decide (name = "id") := by
  by_cases h : name = "id" <;> simp [Record.Owns, Record.named?, record, Field.of, h]

theorem isObject_encode (c : Change) : IsObject [("id", .ofInt c.id)] c.encode :=
  isObject_print <| .cons ⟨rfl, written_int _⟩ .nil

/-- What the field makes of values. -/
def meaning : record.Meaning where
  set? i t := match i with
    | 0 => (t.int? Int64.minValue.toInt Int64.maxValue.toInt).map fun id c => { c with id }
    | _ => none
  reads := by
    intro f i hf t
    simp only [record, List.zipIdx_cons, List.zipIdx_nil, List.mem_cons, List.not_mem_nil, or_false,
      Prod.mk.injEq] at hf
    obtain ⟨rfl, rfl⟩ := hf
    exact Field.reads (Reader.reads_int _ _ t)
  comm := by
    intro i j hij t u s s' hs hs' c
    match i, j with
    | 0, 0 => exact absurd rfl hij
    | _ + 1, _ => cases hs
    | _, _ + 1 => cases hs'

end Change

/-! ## Reports -/

namespace Report

/-- A written report is read back. -/
theorem decode?_encode {r : Report} (h : IsSmall r.id) : decode? r.encode = some r := by
  have hsets : Record.Sets record.fields [] record.blank
      [("ID", Printer.int r.id), ("Direction", Printer.text r.base.tag),
        ("Type", Printer.text r.kind.name)]
      r := by
    refine .cons (i := 0) rfl rfl (Field.gives (Reader.int64_gives h)) ?_
    refine .cons (i := 1) rfl rfl (Field.gives (Reader.choice_gives (Side.ofTag?_tag r.base))) ?_
    refine .cons (i := 2) rfl rfl
      (Field.gives (Reader.choice_gives (Mismatch.ofName?_name r.kind))) ?_
    exact .nil rfl
  rw [decode?, encode, Record.decode_compact hsets]
  rfl

/-- The names of the fields. -/
def names : List String := ["ID", "Direction", "Type"]

theorem owns_record (name : String) : record.Owns name = decide (name ∈ names) := by
  by_cases hid : name = "ID"
  · subst hid
    decide
  by_cases hbase : name = "Direction"
  · subst hbase
    decide
  by_cases hkind : name = "Type"
  · subst hkind
    decide
  simp [Record.Owns, Record.named?, record, Field.of, names, hid, hbase, hkind]

/-- The members of a written report. -/
def members (r : Report) : List (String × Tree) :=
  [("ID", .ofInt r.id), ("Direction", .ofText r.base.tag), ("Type", .ofText r.kind.name)]

theorem isObject_encode (r : Report) : IsObject r.members r.encode :=
  isObject_print <| .cons ⟨rfl, written_int _⟩ <| .cons ⟨rfl, written_text _⟩ <|
    .cons ⟨rfl, written_text _⟩ .nil

/-- What the fields make of values. -/
def meaning : record.Meaning where
  set? i t := match i with
    | 0 => (t.int? Int64.minValue.toInt Int64.maxValue.toInt).map fun id r => { r with id }
    | 1 => (t.choice? Side.ofTag?).map fun base r => { r with base }
    | 2 => (t.choice? Mismatch.ofName?).map fun kind r => { r with kind }
    | _ => none
  reads := by
    intro f i hf t
    simp only [record, List.zipIdx_cons, List.zipIdx_nil, List.mem_cons, List.not_mem_nil, or_false,
      Prod.mk.injEq] at hf
    obtain ⟨rfl, rfl⟩ | ⟨rfl, rfl⟩ | ⟨rfl, rfl⟩ := hf
    · exact Field.reads (Reader.reads_int _ _ t)
    · exact Field.reads (Reader.reads_choice _ t)
    · exact Field.reads (Reader.reads_choice _ t)
  comm := by
    intro i j hij t u s s' hs hs' r
    match i, j with
    | 0, 0 | 1, 1 | 2, 2 => exact absurd rfl hij
    | 0, 1 | 0, 2 | 1, 0 | 1, 2 | 2, 0 | 2, 1 =>
      obtain ⟨_, -, rfl⟩ := Option.map_eq_some_iff.mp hs
      obtain ⟨_, -, rfl⟩ := Option.map_eq_some_iff.mp hs'
      rfl
    | _ + 3, _ => cases hs
    | _, _ + 3 => cases hs'

/-- An object is read as a report whatever the order of its members, its blanks and the members of
other names. -/
theorem decode?_congr {ms ms' : List (String × Tree)} {bs bs' : Bytes} (h : IsObject ms bs)
    (h' : IsObject ms' bs') (hperm : (ms.filter (·.1 ∈ names)).Perm (ms'.filter (·.1 ∈ names))) :
    decode? bs = decode? bs' := by
  simp only [← owns_record] at hperm
  exact meaning.decode_congr h h' hperm

/-- A notice of a change is not read as a report. -/
theorem decode?_change (c : Change) : decode? c.encode = none := by
  have hnames : ∀ m ∈ [("id", Tree.ofInt c.id)], record.Owns m.1 = false := by
    simp [owns_record, names]
  rw [decode?, meaning.decode_object c.isObject_encode]
  exact meaning.assemble_eq_none hnames List.mem_cons_self rfl

end Report

/-- A report is not read as a notice of a change. -/
theorem Change.decode?_report (r : Report) : decode? r.encode = none := by
  have hnames : ∀ m ∈ r.members, record.Owns m.1 = false := by
    simp [owns_record, Report.members]
  rw [decode?, meaning.decode_object r.isObject_encode]
  exact meaning.assemble_eq_none hnames List.mem_cons_self rfl

/-- Both kinds of messages are read back and neither is taken for the other, and what an object is
read as a report does not depend on the order of its members, on blanks and on members of other
names. -/
theorem wire_format :
    (∀ r : Report, IsSmall r.id → Report.decode? r.encode = some r) ∧
    (∀ c : Change, IsSmall c.id → Change.decode? c.encode = some c) ∧
    (∀ r : Report, Change.decode? r.encode = none) ∧
    (∀ c : Change, Report.decode? c.encode = none) ∧
    ∀ ms ms' bs bs', IsObject ms bs → IsObject ms' bs' →
      (ms.filter (·.1 ∈ Report.names)).Perm (ms'.filter (·.1 ∈ Report.names)) →
      Report.decode? bs = Report.decode? bs' :=
  ⟨fun _ => Report.decode?_encode, fun _ => Change.decode?_encode, Change.decode?_report,
    Report.decode?_change, fun _ _ _ _ => Report.decode?_congr⟩

/-- A report whose members are turned round, one a line, with a nested value between them. -/
theorem wire_format_shuffled :
    Report.decode? (Report.encode ⟨-5, .src, .differs⟩) = some ⟨-5, .src, .differs⟩ ∧
    Change.decode? (Change.encode ⟨-5⟩) = some ⟨-5⟩ ∧
    Report.decode? (Printer.lines [("Type", Printer.text "neq"),
      ("Note", 91 :: (Printer.null ++ 44 :: Printer.object [("ID", Printer.int 7)] ++ [93])),
      ("Direction", Printer.text "SRC"), ("ID", Printer.int (-5))]) =
      some ⟨-5, .src, .differs⟩ := by
  have hsmall : IsSmall (-5) := by decide
  refine ⟨wire_format.1 _ hsmall, wire_format.2.1 _ hsmall, ?_⟩
  rw [← wire_format.1 ⟨-5, .src, .differs⟩ hsmall]
  have hobject : Written (.value (.object [((Bytes.ofText "ID").map Text.pieceOf, .ofInt 7)]))
      (Printer.object [("ID", Printer.int 7)]) :=
    .object <| .lastMember <| .member allBlank_nil (Text.spelled_write _) allBlank_nil
      (written_int 7).plain
  have hnote : Written (.value (.array [.null,
      .object [((Bytes.ofText "ID").map Text.pieceOf, .ofInt 7)]]))
      (91 :: (Printer.null ++ 44 :: Printer.object [("ID", Printer.int 7)] ++ [93])) :=
    .array <| .nextElement Written.null.plain <| .lastElement hobject.plain
  have hlines : IsObject [("Type", .ofText "neq"),
      ("Note", .array [.null, .object [((Bytes.ofText "ID").map Text.pieceOf, .ofInt 7)]]),
      ("Direction", .ofText "SRC"), ("ID", .ofInt (-5))]
        (Printer.lines [("Type", Printer.text "neq"),
      ("Note", 91 :: (Printer.null ++ 44 :: Printer.object [("ID", Printer.int 7)] ++ [93])),
      ("Direction", Printer.text "SRC"), ("ID", Printer.int (-5))]) := by
    rw [Layout.object_byLine]
    exact Layout.isObject <| .cons ⟨rfl, written_text _⟩ <| .cons ⟨rfl, hnote⟩ <|
      .cons ⟨rfl, written_text _⟩ <|
      .cons ⟨rfl, written_int _⟩ .nil
  refine wire_format.2.2.2.2 _ _ _ _ hlines (Report.isObject_encode _) ?_
  have hnames : "Type" ∈ Report.names ∧ "Note" ∉ Report.names ∧ "Direction" ∈ Report.names ∧
      "ID" ∈ Report.names := by
    decide
  simp only [Report.members, List.filter_cons, List.filter_nil, hnames, decide_true, decide_false,
    if_true, Bool.false_eq_true, if_false]
  exact List.reverse_perm [("ID", Tree.ofInt (-5)), ("Direction", .ofText "SRC"),
    ("Type", .ofText "neq")]

end Cutover
