import Cutover.Config
import Cutover.Entity
import Cutover.Event

/-!
# Comparisons

Who is compared with whom, and where differences are reported. Everything that looks for mismatches
is set up with a comparison. Main statement: the rows of an id are told to differ exactly if one is
missing or they do not agree (`Mismatch.between_eq_none_iff`).
-/

namespace Cutover

/-- How two rows of one id differ, if they do. -/
def Mismatch.between {ρ : Type} [Entity ρ] : (base target : Option ρ) → Option Mismatch
  | some b, some t => if Entity.agrees b t then none else some .differs
  | some _, none => some .targetMissing
  | none, some _ => some .baseMissing
  | none, none => none

theorem Mismatch.between_eq_none_iff {ρ : Type} [Entity ρ] {base target : Option ρ} :
    Mismatch.between base target = none ↔
      base.isSome = target.isSome ∧
        ∀ b ∈ base, ∀ t ∈ target, Entity.agrees b t = true := by
  cases base <;> cases target <;> simp [Mismatch.between]

/-- Who is compared with whom, and where differences are reported. -/
structure Comparison where
  /-- The side whose rows count as right. -/
  base : Side
  /-- The side under which mismatches are reported. -/
  tag : Side
  /-- How long one call may take. -/
  callLimit : Nat
  topic : String
  deriving DecidableEq, Repr, Inhabited

namespace Comparison

/-- The side that is compared with the base. -/
def target (c : Comparison) : Side := c.base.other

def report (c : Comparison) (id : Int) (kind : Mismatch) : Report := ⟨id, c.tag, kind⟩

/-- The comparison with a given base, which reports mismatches under the base. -/
def ofSide (config : Config) (base : Side) : Comparison where
  base
  tag := base
  callLimit := config.callTimeout.ticks
  topic := config.inconsistencyTopic

@[simp] theorem tag_ofSide (config : Config) (base : Side) :
    (ofSide config base).tag = (ofSide config base).base := rfl

end Comparison

end Cutover
