/-!
# Entities

The analysis tracks which **entities** a value may be: the functions and the objects
of the program, each represented once. A function or an object is named by its
position in the table that holds it.

* `Entity.lt_trichotomy`: entities are totally ordered, functions before objects.
-/

namespace TypeFlow

/-- A canonical function, by its position in the function table. Positions are kept in 32 bits, so a
table has at most `2 ^ 32` entries; nothing here is meant for larger ones. -/
structure FnRef where
  index : Nat
deriving DecidableEq

/-- A canonical object, by its position in the object table, which has at most `2 ^ 32` entries. -/
structure ObjRef where
  index : Nat
deriving DecidableEq

/-- One thing that a value may be at run time. -/
inductive Entity where
  | function (f : FnRef)
  | object (o : ObjRef)
deriving DecidableEq

namespace Entity

/-- Functions come before objects, and each kind is ordered by position. -/
protected def lt : Entity → Entity → Prop
  | function f, function g => f.index < g.index
  | function _, object _ => True
  | object _, function _ => False
  | object o, object q => o.index < q.index

instance : LT Entity := ⟨Entity.lt⟩

instance : (a b : Entity) → Decidable (a < b)
  | function f, function g => inferInstanceAs (Decidable (f.index < g.index))
  | function _, object _ => .isTrue trivial
  | object _, function _ => .isFalse id
  | object o, object q => inferInstanceAs (Decidable (o.index < q.index))

instance : LE Entity := ⟨fun a b => ¬ b < a⟩

instance (a b : Entity) : Decidable (a ≤ b) := inferInstanceAs (Decidable (¬ b < a))

@[simp] theorem function_lt_function {f g : FnRef} : function f < function g ↔ f.index < g.index :=
  .rfl

@[simp] theorem object_lt_object {o q : ObjRef} : object o < object q ↔ o.index < q.index := .rfl

@[simp] theorem function_lt_object {f : FnRef} {o : ObjRef} : function f < object o := trivial

@[simp] theorem not_object_lt_function {f : FnRef} {o : ObjRef} : ¬ object o < function f := id

theorem lt_irrefl (a : Entity) : ¬ a < a := by
  cases a <;> simp

theorem lt_trans {a b c : Entity} (hab : a < b) (hbc : b < c) : a < c := by
  cases a <;> cases b <;> cases c <;> simp_all <;> omega

/-- Two entities that neither precede nor follow each other are the same. -/
theorem lt_trichotomy (a b : Entity) : a < b ∨ a = b ∨ b < a := by
  cases a with
  | function f =>
    cases b with
    | function g =>
      rcases Nat.lt_trichotomy f.index g.index with h | h | h
      · exact .inl h
      · exact .inr (.inl (congrArg function (FnRef.mk.injEq .. ▸ h)))
      · exact .inr (.inr h)
    | object q => exact .inl trivial
  | object o =>
    cases b with
    | function g => exact .inr (.inr trivial)
    | object q =>
      rcases Nat.lt_trichotomy o.index q.index with h | h | h
      · exact .inl h
      · exact .inr (.inl (congrArg object (ObjRef.mk.injEq .. ▸ h)))
      · exact .inr (.inr h)

theorem le_total (a b : Entity) : a ≤ b ∨ b ≤ a := by
  by_cases h : b < a
  · exact .inr fun hab => lt_irrefl a (lt_trans hab h)
  · exact .inl h

theorem lt_of_le_of_ne {a b : Entity} (hle : a ≤ b) (hne : a ≠ b) : a < b :=
  ((lt_trichotomy a b).resolve_right fun h => h.elim hne hle)

theorem lt_of_lt_of_le {a b c : Entity} (hab : a < b) (hbc : b ≤ c) : a < c := by
  by_cases h : b = c
  · exact h ▸ hab
  · exact lt_trans hab (lt_of_le_of_ne hbc h)

theorem le_trans {a b c : Entity} (hab : a ≤ b) (hbc : b ≤ c) : a ≤ c :=
  fun hca => hbc (lt_of_lt_of_le hca hab)

/-- The function named by the entity, if it is one. -/
def function? : Entity → Option FnRef
  | function f => some f
  | object _ => none

/-- The object named by the entity, if it is one. -/
def object? : Entity → Option ObjRef
  | function _ => none
  | object o => some o

/-- The entity by kind and position, as in `function#3`. -/
def render : Entity → String
  | function f => "function#" ++ toString f.index
  | object o => "instance#" ++ toString o.index

end Entity

end TypeFlow
