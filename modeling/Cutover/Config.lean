import Cutover.Error
import Cutover.Duration
import Cutover.Text.Blank
import Cutover.Json.Record
import Cutover.Json.Printer

/-!
# Configuration

The settings of a migration, their defaults, what makes them unusable, and their written form. Of
several defects the first in the order of `Config.Defect` is named. Absent fields of the written
form keep their defaults. Main definitions: `Config.validate`, `Config.encode`, `Config.load`.
-/

namespace Cutover

structure Config where
  /-- How many rows a page has. -/
  batchSize : Nat := 100
  /-- How long one call to a store or the broker may take. -/
  callTimeout : Duration := .ofMillis 1000
  /-- How long the handling of one message may take. -/
  fixTimeout : Duration := .ofMillis 1000
  inconsistencyTopic : String := "migrator_inconsistent"
  changeTopic : String := "migrator_row_changed"
  /-- The group of consumers that repair rows. -/
  fixGroup : String := "migrator-fix"
  /-- The group of consumers that check changed rows. -/
  changeGroup : String := "migrator-change"
  /-- After how many failed pages in a row a scan gives up. -/
  maxConsecutiveFailures : Nat := 3
  /-- How long a message that could not be handled is left alone. -/
  redeliveryBackoff : Duration := .ofMillis 100
  /-- Whether a job waits for the end of the job it replaces. -/
  awaitPreviousJob : Bool := true
  deriving DecidableEq, Repr, Inhabited

namespace Config

/-! ## Defects -/

/-- What makes a configuration unusable. -/
inductive Defect where
  | batchSize
  | callTimeout
  | fixTimeout
  | maxConsecutiveFailures
  | inconsistencyTopic
  | changeTopic
  | fixGroup
  | changeGroup
  deriving DecidableEq, Repr

namespace Defect

def message : Defect → String
  | batchSize => "batch_size must be > 0"
  | callTimeout => "call_timeout must be > 0"
  | fixTimeout => "fix_timeout must be > 0"
  | maxConsecutiveFailures => "max_consecutive_failures must be > 0"
  | inconsistencyTopic => "inconsistency_topic cannot be empty"
  | changeTopic => "change_topic cannot be empty"
  | fixGroup => "fix_consumer_group cannot be empty"
  | changeGroup => "change_consumer_group cannot be empty"

/-- All defects, in the order in which they are looked for. -/
def all : List Defect :=
  [batchSize, callTimeout, fixTimeout, maxConsecutiveFailures, inconsistencyTopic, changeTopic,
    fixGroup, changeGroup]

def holds (c : Config) : Defect → Bool
  | batchSize => c.batchSize == 0
  | callTimeout => c.callTimeout.isZero
  | fixTimeout => c.fixTimeout.isZero
  | maxConsecutiveFailures => c.maxConsecutiveFailures == 0
  | inconsistencyTopic => Text.isEmpty c.inconsistencyTopic
  | changeTopic => Text.isEmpty c.changeTopic
  | fixGroup => Text.isEmpty c.fixGroup
  | changeGroup => Text.isEmpty c.changeGroup

theorem mem_all (d : Defect) : d ∈ all := by cases d <;> decide

end Defect

def defect? (c : Config) : Option Defect := Defect.all.find? (Defect.holds c)

def validate (c : Config) : Except Error Unit :=
  match c.defect? with
  | none => .ok ()
  | some d => .error (.config d.message)

theorem validate_eq_ok_iff {c : Config} : c.validate = .ok () ↔ ∀ d, Defect.holds c d = false := by
  unfold validate defect?
  constructor
  · intro h d
    split at h
    · next hn => simpa using List.find?_eq_none.1 hn d d.mem_all
    · cases h
  · intro h
    have : Defect.all.find? (Defect.holds c) = none := List.find?_eq_none.2 fun d _ => by simp [h d]
    rw [this]

theorem batchSize_pos {c : Config} (h : c.validate = .ok ()) : 0 < c.batchSize := by
  simpa [Defect.holds, Nat.pos_iff_ne_zero] using validate_eq_ok_iff.mp h .batchSize

theorem maxConsecutiveFailures_pos {c : Config} (h : c.validate = .ok ()) :
    0 < c.maxConsecutiveFailures := by
  simpa [Defect.holds, Nat.pos_iff_ne_zero] using validate_eq_ok_iff.mp h .maxConsecutiveFailures

/-! ## Written form -/

/-- The fields of the written form, in order. -/
def members (c : Config) : List (String × Bytes) :=
  [("batch_size", Json.Printer.nat c.batchSize),
    ("call_timeout_ms", Json.Printer.nat c.callTimeout.written),
    ("fix_timeout_ms", Json.Printer.nat c.fixTimeout.written),
    ("inconsistency_topic", Json.Printer.text c.inconsistencyTopic),
    ("change_topic", Json.Printer.text c.changeTopic),
    ("fix_consumer_group", Json.Printer.text c.fixGroup),
    ("change_consumer_group", Json.Printer.text c.changeGroup),
    ("max_consecutive_failures", Json.Printer.nat c.maxConsecutiveFailures),
    ("redelivery_backoff_ms", Json.Printer.nat c.redeliveryBackoff.written),
    ("await_previous_job", Json.Printer.bool c.awaitPreviousJob)]

def encode (c : Config) : Bytes := Json.Printer.object c.members

/-- The written form of a configuration, one field a line. -/
def encodeLines (c : Config) : Bytes := Json.Printer.lines c.members

/-- A duration, in milliseconds. -/
def duration : Json.Reader Duration := fun bs =>
  (Json.Reader.nat64 bs).map fun (ms, rest) => (.ofMillis ms, rest)

def record : Json.Record Config where
  fields :=
    [.of "batch_size" false .nat64 fun n c => { c with batchSize := n },
      .of "call_timeout_ms" false duration fun d c => { c with callTimeout := d },
      .of "fix_timeout_ms" false duration fun d c => { c with fixTimeout := d },
      .of "inconsistency_topic" false .text fun s c => { c with inconsistencyTopic := s },
      .of "change_topic" false .text fun s c => { c with changeTopic := s },
      .of "fix_consumer_group" false .text fun s c => { c with fixGroup := s },
      .of "change_consumer_group" false .text fun s c => { c with changeGroup := s },
      .of "max_consecutive_failures" false .nat64 fun n c => { c with maxConsecutiveFailures := n },
      .of "redelivery_backoff_ms" false duration fun d c => { c with redeliveryBackoff := d },
      .of "await_previous_job" false .bool fun b c => { c with awaitPreviousJob := b }]
  blank := {}

def decode? (bs : Bytes) : Option Config := (Json.Reader.decode record.read bs).toOption

/-- Why a file holds no usable configuration. -/
inductive FileError where
  /-- The file is missing, is not UTF-8 throughout, or is not the written form of a
  configuration. -/
  | unreadable
  | defective (d : Defect)
  deriving DecidableEq, Repr

/-- The error for a file. What is wrong with the file itself is reported with its name in front. -/
def FileError.toError (file : String) : FileError → Error
  | unreadable => .config (file ++ ": no configuration can be read from it")
  | defective d => .config d.message

/-- The configuration in a file with the given content, or in a file without content. -/
def load (content : Option Bytes) : Except FileError Config :=
  match content.filter fun bs => (Bytes.toText? bs).isSome with
  | none => .error .unreadable
  | some bs =>
    match decode? bs with
    | none => .error .unreadable
    | some c =>
      match c.defect? with
      | none => .ok c
      | some d => .error (.defective d)

end Config

end Cutover
