import Cutover.Error

/-!
# Sides and routing policies

A migration has two stores, the source and the destination. A routing policy says which of them
serves reads and is written first, and whether the other one is written too. Main statements: a
policy is the policy its name names (`Policy.ofName?_name`), and the side written second, if any, is
the other side (`Policy.secondary_eq_other`).
-/

namespace Cutover

/-! ## Sides -/

/-- One of the two stores of a migration. -/
inductive Side where
  | src
  | dst
  deriving DecidableEq, Repr, Inhabited

namespace Side

/-- The opposite store. -/
def other : Side → Side
  | src => dst
  | dst => src

/-- The name of a side in policies and store names. -/
def name : Side → String
  | src => "src"
  | dst => "dst"

/-- The tag under which a side appears in events. -/
def tag : Side → String
  | src => "SRC"
  | dst => "DST"

def all : List Side := [src, dst]

def ofName? (s : String) : Option Side := all.find? (·.name == s)

def ofTag? (s : String) : Option Side := all.find? (·.tag == s)

@[simp] theorem other_other (s : Side) : s.other.other = s := by cases s <;> rfl

theorem other_ne (s : Side) : s.other ≠ s := by cases s <;> decide

theorem ofName?_name (s : Side) : ofName? s.name = some s := by cases s <;> rfl

theorem ofTag?_tag (s : Side) : ofTag? s.tag = some s := by cases s <;> rfl

end Side

/-! ## Routing policies -/

/-- Which store serves traffic, and whether writes are doubled. -/
inductive Policy where
  | srcOnly
  | dstOnly
  | srcFirst
  | dstFirst
  deriving DecidableEq, Repr

namespace Policy

/-- The policy before anyone has chosen one. -/
instance : Inhabited Policy := ⟨srcOnly⟩

/-- Every policy, in the order in which they are listed. -/
def all : List Policy := [srcOnly, dstOnly, srcFirst, dstFirst]

def name : Policy → String
  | srcOnly => "src_only"
  | dstOnly => "dst_only"
  | srcFirst => "src_first"
  | dstFirst => "dst_first"

/-- The store that serves reads and is written first. -/
def primary : Policy → Side
  | srcOnly | srcFirst => .src
  | dstOnly | dstFirst => .dst

/-- The store that is written second, if writes are doubled. -/
def secondary : Policy → Option Side
  | srcOnly | dstOnly => none
  | srcFirst => some .dst
  | dstFirst => some .src

def isDualWrite (p : Policy) : Bool := p.secondary.isSome

def ofName? (s : String) : Option Policy := all.find? (·.name == s)

/-- The policy with a given name, or the error that names it. -/
def parse (s : String) : Except Error Policy :=
  match ofName? s with
  | some p => .ok p
  | none => .error (.unknownPolicy s)

theorem mem_all (p : Policy) : p ∈ all := by cases p <;> decide

theorem ofName?_name (p : Policy) : ofName? p.name = some p := by cases p <;> rfl

theorem name_of_ofName? {s : String} {p : Policy} (h : ofName? s = some p) : p.name = s := by
  simpa using List.find?_some h

theorem secondary_eq_other {p : Policy} {s : Side} (h : p.secondary = some s) :
    s = p.primary.other := by
  cases p <;> simp_all [secondary, primary, Side.other]

end Policy

end Cutover
