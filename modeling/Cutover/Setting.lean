import Cutover.Config

/-!
# Settings

A configuration that is not read from a file is built from the defaults, by settings one after the
other. Sizes have 64 bits; durations and texts are any. Main definition: `Config.ofSettings`.
-/

namespace Cutover

/-- What one field of a configuration is set to. -/
inductive Setting where
  | batchSize (rows : UInt64)
  | callTimeout (d : Duration)
  | fixTimeout (d : Duration)
  | inconsistencyTopic (name : String)
  | changeTopic (name : String)
  | fixGroup (name : String)
  | changeGroup (name : String)
  | maxConsecutiveFailures (pages : UInt64)
  | redeliveryBackoff (d : Duration)
  | awaitPreviousJob (wait : Bool)
  deriving DecidableEq, Repr

namespace Config

def set (c : Config) : Setting → Config
  | .batchSize rows => { c with batchSize := rows.toNat }
  | .callTimeout d => { c with callTimeout := d }
  | .fixTimeout d => { c with fixTimeout := d }
  | .inconsistencyTopic name => { c with inconsistencyTopic := name }
  | .changeTopic name => { c with changeTopic := name }
  | .fixGroup name => { c with fixGroup := name }
  | .changeGroup name => { c with changeGroup := name }
  | .maxConsecutiveFailures pages => { c with maxConsecutiveFailures := pages.toNat }
  | .redeliveryBackoff d => { c with redeliveryBackoff := d }
  | .awaitPreviousJob wait => { c with awaitPreviousJob := wait }

/-- The configuration that settings make of the defaults. -/
def ofSettings (settings : List Setting) : Config := settings.foldl set {}

end Config

end Cutover
