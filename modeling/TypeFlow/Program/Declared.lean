/-!
# Declared types

What a type checker knows about a value before the analysis runs: nothing, that it
is no object, that it has a certain shape, that it is a function. Function types may
carry the signature of the function.
-/

namespace TypeFlow

/-- A function declaration, by its position in the program. -/
structure FunctionId where
  index : Nat
deriving DecidableEq

/-- An object shape, by its position in the program. -/
structure ShapeId where
  index : Nat
deriving DecidableEq

mutual

/-- The static type of a value. -/
inductive DeclaredType where
  /-- The checker could not tell. -/
  | unknown
  /-- A number, string, boolean, null or undefined. -/
  | primitive
  /-- An object of no particular shape. -/
  | anyObject
  | object (shape : ShapeId)
  /-- A function, tied to its declaration where that is known. -/
  | function (decl : Option FunctionId) (signature : Option Signature)
  | union (members : List DeclaredType)

/-- The declared parameter, receiver and result types of a function. -/
structure Signature where
  params : List DeclaredType
  thisType : Option DeclaredType
  ret : DeclaredType

end

namespace DeclaredType

/-- The function type of a known declaration. -/
def ofFunction (f : FunctionId) : DeclaredType := function (some f) none

/-- A function type known by its signature only, as callback parameters are. -/
def callback (s : Signature) : DeclaredType := function none (some s)

/-- The signature of a function type, where there is one. -/
def signature? : DeclaredType → Option Signature
  | function _ s => s
  | _ => none

end DeclaredType

/-- The signature of which nothing is declared. -/
instance : Inhabited Signature := ⟨⟨[], none, .unknown⟩⟩

/-! ### Equality is decidable -/

mutual

def DeclaredType.decEq : (a b : DeclaredType) → Decidable (a = b)
  | .unknown, .unknown => .isTrue rfl
  | .primitive, .primitive => .isTrue rfl
  | .anyObject, .anyObject => .isTrue rfl
  | .object s, .object t =>
    if h : s = t then .isTrue (by rw [h]) else .isFalse (by simp [h])
  | .function d s, .function e t =>
    if h : d = e then
      match Signature.decEqOption s t with
      | .isTrue k => .isTrue (by rw [h, k])
      | .isFalse k => .isFalse (by simp [k])
    else .isFalse (by simp [h])
  | .union a, .union b =>
    match DeclaredType.decEqList a b with
    | .isTrue h => .isTrue (by rw [h])
    | .isFalse h => .isFalse (by simp [h])
  | .unknown, .primitive | .unknown, .anyObject | .unknown, .object _
  | .unknown, .function .. | .unknown, .union _ => .isFalse nofun
  | .primitive, .unknown | .primitive, .anyObject | .primitive, .object _
  | .primitive, .function .. | .primitive, .union _ => .isFalse nofun
  | .anyObject, .unknown | .anyObject, .primitive | .anyObject, .object _
  | .anyObject, .function .. | .anyObject, .union _ => .isFalse nofun
  | .object _, .unknown | .object _, .primitive | .object _, .anyObject
  | .object _, .function .. | .object _, .union _ => .isFalse nofun
  | .function .., .unknown | .function .., .primitive | .function .., .anyObject
  | .function .., .object _ | .function .., .union _ => .isFalse nofun
  | .union _, .unknown | .union _, .primitive | .union _, .anyObject
  | .union _, .object _ | .union _, .function .. => .isFalse nofun
termination_by structural a => a

def DeclaredType.decEqList : (a b : List DeclaredType) → Decidable (a = b)
  | [], [] => .isTrue rfl
  | [], _ :: _ => .isFalse nofun
  | _ :: _, [] => .isFalse nofun
  | a :: as, b :: bs =>
    match DeclaredType.decEq a b, DeclaredType.decEqList as bs with
    | .isTrue h, .isTrue k => .isTrue (by rw [h, k])
    | .isFalse h, _ => .isFalse (by simp [h])
    | _, .isFalse k => .isFalse (by simp [k])
termination_by structural a => a

def DeclaredType.decEqOption : (a b : Option DeclaredType) → Decidable (a = b)
  | none, none => .isTrue rfl
  | none, some _ => .isFalse nofun
  | some _, none => .isFalse nofun
  | some a, some b =>
    match DeclaredType.decEq a b with
    | .isTrue h => .isTrue (by rw [h])
    | .isFalse h => .isFalse (by simp [h])
termination_by structural a => a

def Signature.decEq : (a b : Signature) → Decidable (a = b)
  | ⟨p, t, r⟩, ⟨q, u, s⟩ =>
    match DeclaredType.decEqList p q, DeclaredType.decEqOption t u, DeclaredType.decEq r s with
    | .isTrue h, .isTrue k, .isTrue l => .isTrue (by rw [h, k, l])
    | .isFalse h, _, _ => .isFalse (by simp [h])
    | _, .isFalse k, _ => .isFalse (by simp [k])
    | _, _, .isFalse l => .isFalse (by simp [l])
termination_by structural a => a

def Signature.decEqOption : (a b : Option Signature) → Decidable (a = b)
  | none, none => .isTrue rfl
  | none, some _ => .isFalse nofun
  | some _, none => .isFalse nofun
  | some a, some b =>
    match Signature.decEq a b with
    | .isTrue h => .isTrue (by rw [h])
    | .isFalse h => .isFalse (by simp [h])
termination_by structural a => a

end

instance : DecidableEq DeclaredType := DeclaredType.decEq

instance : DecidableEq Signature := Signature.decEq

end TypeFlow
