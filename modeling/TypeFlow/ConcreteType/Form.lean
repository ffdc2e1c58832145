import TypeFlow.ConcreteType.Basic

/-!
# Forms of concrete types

How a concrete type is stored. There is a form for nothing, one for everything, one for a single
function, one for a single object, and one that lists several members. A list can be out of order,
repeat a member or be too short, and forms are compared as they stand; so each operation has to see to it
that what it returns is in the one form that stands for its set.

* `TypeForm.ofMembers`: sorts, drops repetitions and chooses the form by the number of members.
* `TypeForm.Canonical`: the forms that stand for a set.
* `ConcreteType.form`, `TypeForm.type`: the form of a type, and the type that a form stands for.
-/

namespace TypeFlow

/-- **A concrete type as it is stored.** -/
inductive TypeForm where
  /-- No value has been observed. -/
  | none
  /-- Any value at all. -/
  | all
  | function (f : FnRef)
  | object (o : ObjRef)
  /-- Several members, which should be increasing. -/
  | union (members : List Entity)
deriving DecidableEq

namespace TypeForm

instance : Inhabited TypeForm := ⟨none⟩

/-- **A form that stands for a set**: where members are listed, they are increasing and at least two. -/
def Canonical : TypeForm → Prop
  | union l => l.Pairwise (· < ·) ∧ 2 ≤ l.length
  | _ => True

instance : DecidablePred Canonical
  | none => .isTrue trivial
  | all => .isTrue trivial
  | function _ => .isTrue trivial
  | object _ => .isTrue trivial
  | union l => inferInstanceAs (Decidable (l.Pairwise (· < ·) ∧ 2 ≤ l.length))

/-- Exactly one entity. -/
def single : Entity → TypeForm
  | .function f => function f
  | .object o => object o

/-- **The form of the entities on a list**, which may be in any order and repeat entities. -/
def ofMembers (l : List Entity) : TypeForm :=
  match l.mergeSort.eraseReps with
  | [] => none
  | [e] => single e
  | ms => union ms

/-- The members as they are stored. Nothing and everything list none. -/
def members : TypeForm → List Entity
  | none => []
  | all => []
  | function f => [.function f]
  | object o => [.object o]
  | union l => l

/-- The functions among the members. -/
def functions (t : TypeForm) : List FnRef := t.members.filterMap Entity.function?

/-- The objects among the members. -/
def objects (t : TypeForm) : List ObjRef := t.members.filterMap Entity.object?

def isNone : TypeForm → Bool
  | none => true
  | _ => false

def isAll : TypeForm → Bool
  | all => true
  | _ => false

def isFunction : TypeForm → Bool
  | function _ => true
  | _ => false

def isObject : TypeForm → Bool
  | object _ => true
  | _ => false

def isUnion : TypeForm → Bool
  | union _ => true
  | _ => false

/-- Least upper bound. Where one operand is nothing, or both are the same, an operand is returned as it is. -/
def unionWith : TypeForm → TypeForm → TypeForm
  | all, _ => all
  | _, all => all
  | none, t => t
  | t, none => t
  | a, b => if a = b then a else ofMembers (a.members ++ b.members)

/-- Greatest lower bound. -/
def intersectWith : TypeForm → TypeForm → TypeForm
  | all, t => t
  | t, all => t
  | none, _ => none
  | _, none => none
  | a, b => if a = b then a else ofMembers (a.members.filter (b.members.contains ·))

/-- The order of the lattice. -/
def isSubsetOf : TypeForm → TypeForm → Bool
  | none, _ => true
  | _, all => true
  | all, _ => false
  | a, b => a.members.all (b.members.contains ·)

/-- The members that pass a test. There is no listing `all`, so it stays as it is. -/
def filter (keep : Entity → Bool) : TypeForm → TypeForm
  | all => all
  | t => ofMembers (t.members.filter keep)

/-- The form by kinds and positions, as in `(function#1, instance#0)`. -/
def render : TypeForm → String
  | none => "NONE"
  | all => "ALL"
  | function f => (Entity.function f).render
  | object o => (Entity.object o).render
  | union l => "(" ++ ", ".intercalate (l.map Entity.render) ++ ")"

/-- The type that a form stands for. -/
def type : TypeForm → ConcreteType
  | all => .all
  | t => .ofList t.members

/-- **What can be built** from nothing, from everything and from lists of members. -/
inductive Built : TypeForm → Prop
  | none : Built none
  | all : Built all
  | ofMembers (l : List Entity) : Built (ofMembers l)
  | unionWith {a b : TypeForm} : Built a → Built b → Built (a.unionWith b)
  | intersectWith {a b : TypeForm} : Built a → Built b → Built (a.intersectWith b)
  | filter {a : TypeForm} (keep : Entity → Bool) : Built a → Built (a.filter keep)

end TypeForm

/-- The form of a type. -/
def ConcreteType.form : ConcreteType → TypeForm
  | .all => .all
  | .only s => .ofMembers s.members

end TypeFlow
