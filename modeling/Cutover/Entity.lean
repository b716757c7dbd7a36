/-!
# Rows

What the migration needs to know of a row: its id, when it was last changed, and whether it agrees
with the row of the same id in the other store. `Account` is the row type of the demonstration.
-/

namespace Cutover

/-- A row type that can be migrated. -/
class Entity (ρ : Type) where
  /-- The key, the same in both stores. -/
  id : ρ → Int
  /-- When the row was last changed. -/
  updatedAt : ρ → Int
  /-- Whether two rows of one id hold the same data. Nothing is assumed of it. -/
  agrees : ρ → ρ → Bool

/-- A row of the demonstration's table. -/
structure Account where
  id : Int
  owner : String
  balance : Int
  updatedAt : Int
  deriving DecidableEq, Repr, Inhabited

instance : Entity Account where
  id := Account.id
  updatedAt := Account.updatedAt
  agrees a b := decide (a = b)

end Cutover
