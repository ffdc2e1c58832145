import TypeFlow.Entity

/-!
# Concrete types

A concrete type is the set of entities that a value may be: a finite set, or
everything. Finite sets are kept as strictly increasing lists, so that equal sets
are equal values.

* `EntitySet.ext`: a finite set is determined by its members.
* `EntitySet.mem_ofList`, `mem_union`, `mem_inter`, `mem_filter`: membership is the view through
  which the operations are read.
-/

namespace TypeFlow

/-- A finite set of entities, in increasing order without repetition. -/
structure EntitySet where
  members : List Entity
  increasing : members.Pairwise (· < ·)
deriving DecidableEq

namespace EntitySet

instance : Membership Entity EntitySet := ⟨fun s e => e ∈ s.members⟩

theorem mem_def {e : Entity} {s : EntitySet} : e ∈ s ↔ e ∈ s.members := .rfl

instance (e : Entity) (s : EntitySet) : Decidable (e ∈ s) :=
  inferInstanceAs (Decidable (e ∈ s.members))

/-- The list with `e` in its place, unless it is there already. -/
def insertInto (e : Entity) : List Entity → List Entity
  | [] => [e]
  | x :: xs => if e < x then e :: x :: xs else if e = x then x :: xs else x :: insertInto e xs

theorem mem_insertInto {e x : Entity} {l : List Entity} : x ∈ insertInto e l ↔ x = e ∨ x ∈ l := by
  induction l with
  | nil => simp [insertInto]
  | cons y ys ih =>
    unfold insertInto
    split
    · simp
    · split
      · rename_i h; subst h; simp
      · simp only [List.mem_cons, ih]; exact or_left_comm

theorem pairwise_insertInto (e : Entity) {l : List Entity} (h : l.Pairwise (· < ·)) :
    (insertInto e l).Pairwise (· < ·) := by
  induction l with
  | nil => simp [insertInto]
  | cons y ys ih =>
    obtain ⟨hy, hys⟩ := List.pairwise_cons.1 h
    unfold insertInto
    split
    · rename_i hlt
      refine List.pairwise_cons.2 ⟨fun z hz => ?_, h⟩
      rcases List.mem_cons.1 hz with rfl | hz
      · exact hlt
      · exact Entity.lt_trans hlt (hy z hz)
    · split
      · exact h
      · rename_i hlt hne
        refine List.pairwise_cons.2 ⟨fun z hz => ?_, ih hys⟩
        rcases mem_insertInto.1 hz with rfl | hz
        · exact ((Entity.lt_trichotomy z y).resolve_left hlt).resolve_left hne
        · exact hy z hz

instance : EmptyCollection EntitySet := ⟨⟨[], .nil⟩⟩

/-- The set with `e` added. -/
def insert (e : Entity) (s : EntitySet) : EntitySet :=
  ⟨insertInto e s.members, pairwise_insertInto e s.increasing⟩

/-- The set of the entities on a list. -/
def ofList (l : List Entity) : EntitySet := l.foldr insert ∅

/-- The members that pass a test. -/
def filter (keep : Entity → Bool) (s : EntitySet) : EntitySet :=
  ⟨s.members.filter keep, s.increasing.filter keep⟩

instance : Union EntitySet := ⟨fun s t => ofList (s.members ++ t.members)⟩

instance : Inter EntitySet := ⟨fun s t => s.filter (decide <| · ∈ t)⟩

instance : HasSubset EntitySet := ⟨fun s t => ∀ e ∈ s.members, e ∈ t⟩

instance (s t : EntitySet) : Decidable (s ⊆ t) :=
  inferInstanceAs (Decidable (∀ e ∈ s.members, e ∈ t))

@[simp] theorem not_mem_empty (e : Entity) : ¬ e ∈ (∅ : EntitySet) := List.not_mem_nil

@[simp] theorem mem_insert {e x : Entity} {s : EntitySet} : x ∈ s.insert e ↔ x = e ∨ x ∈ s :=
  mem_insertInto

@[simp] theorem mem_ofList {x : Entity} {l : List Entity} : x ∈ ofList l ↔ x ∈ l := by
  induction l with
  | nil => simp [ofList]
  | cons e l ih =>
    rw [List.mem_cons, ← ih]
    exact mem_insert

@[simp] theorem mem_filter {x : Entity} {keep : Entity → Bool} {s : EntitySet} :
    x ∈ s.filter keep ↔ x ∈ s ∧ keep x = true :=
  List.mem_filter

@[simp] theorem mem_union {x : Entity} {s t : EntitySet} : x ∈ s ∪ t ↔ x ∈ s ∨ x ∈ t :=
  mem_ofList.trans List.mem_append

@[simp] theorem mem_inter {x : Entity} {s t : EntitySet} : x ∈ s ∩ t ↔ x ∈ s ∧ x ∈ t := by
  refine mem_filter.trans ?_
  simp

theorem subset_iff {s t : EntitySet} : s ⊆ t ↔ ∀ e, e ∈ s → e ∈ t := .rfl

/-- Two increasing lists with the same members are equal. -/
theorem eq_of_increasing : ∀ {l m : List Entity}, l.Pairwise (· < ·) → m.Pairwise (· < ·) →
    (∀ e, e ∈ l ↔ e ∈ m) → l = m
  | [], [], _, _, _ => rfl
  | [], b :: _, _, _, h => absurd ((h b).2 (List.mem_cons_self ..)) List.not_mem_nil
  | a :: _, [], _, _, h => absurd ((h a).1 (List.mem_cons_self ..)) List.not_mem_nil
  | a :: l, b :: m, hl, hm, h => by
    obtain ⟨ha, hl'⟩ := List.pairwise_cons.1 hl
    obtain ⟨hb, hm'⟩ := List.pairwise_cons.1 hm
    have hab : a = b := by
      rcases List.mem_cons.1 ((h a).1 (List.mem_cons_self ..)) with h1 | h1
      · exact h1
      · rcases List.mem_cons.1 ((h b).2 (List.mem_cons_self ..)) with h2 | h2
        · exact h2.symm
        · exact absurd (Entity.lt_trans (ha b h2) (hb a h1)) (Entity.lt_irrefl a)
    subst hab
    refine congrArg (a :: ·) (eq_of_increasing hl' hm' fun e => ?_)
    constructor
    · intro he
      rcases List.mem_cons.1 ((h e).1 (List.mem_cons_of_mem _ he)) with h1 | h1
      · exact absurd (h1 ▸ ha e he) (Entity.lt_irrefl a)
      · exact h1
    · intro he
      rcases List.mem_cons.1 ((h e).2 (List.mem_cons_of_mem _ he)) with h1 | h1
      · exact absurd (h1 ▸ hb e he) (Entity.lt_irrefl a)
      · exact h1

/-- **A finite set of entities is determined by its members.** -/
@[ext] theorem ext {s t : EntitySet} (h : ∀ e, e ∈ s ↔ e ∈ t) : s = t := by
  obtain ⟨l, hl⟩ := s
  obtain ⟨m, hm⟩ := t
  have := eq_of_increasing hl hm h
  subst this
  rfl

end EntitySet

/-- What a value may be: any entity whatever, or only those of a finite set. -/
inductive ConcreteType where
  | all
  | only (set : EntitySet)
deriving DecidableEq

namespace ConcreteType

/-- The empty type: no value has been observed. -/
instance : EmptyCollection ConcreteType := ⟨only ∅⟩

/-- Exactly the entities on a list, in any order and with repetitions. -/
def ofList (l : List Entity) : ConcreteType := only (EntitySet.ofList l)

/-- Exactly one entity. -/
def single (e : Entity) : ConcreteType := ofList [e]

/-- Exactly one function. -/
def function (f : FnRef) : ConcreteType := single (.function f)

/-- Exactly one object. -/
def object (o : ObjRef) : ConcreteType := single (.object o)

instance : Inhabited ConcreteType := ⟨∅⟩

/-- The entities of a finite type in increasing order; `all` lists none. -/
def members : ConcreteType → List Entity
  | all => []
  | only s => s.members

/-- The functions of a finite type in increasing order; `all` lists none. -/
def functions (t : ConcreteType) : List FnRef := t.members.filterMap Entity.function?

/-- The objects of a finite type in increasing order; `all` lists none. -/
def objects (t : ConcreteType) : List ObjRef := t.members.filterMap Entity.object?

/-- Whether the type is a single function. -/
def isFunction (t : ConcreteType) : Bool := t.members.length = 1 ∧ t.functions ≠ []

/-- Whether the type is a single object. -/
def isObject (t : ConcreteType) : Bool := t.members.length = 1 ∧ t.objects ≠ []

/-- Whether the type has several members that can be listed. -/
def isUnion (t : ConcreteType) : Bool := 2 ≤ t.members.length

/-- Least upper bound: `all` absorbs. -/
protected def union : ConcreteType → ConcreteType → ConcreteType
  | only s, only t => only (s ∪ t)
  | _, _ => all

/-- Greatest lower bound: `all` is neutral. -/
protected def inter : ConcreteType → ConcreteType → ConcreteType
  | all, t => t
  | t, all => t
  | only s, only t => only (s ∩ t)

/-- The order of the lattice. -/
protected def Subset : ConcreteType → ConcreteType → Prop
  | _, all => True
  | all, only _ => False
  | only s, only t => s ⊆ t

instance : Union ConcreteType := ⟨ConcreteType.union⟩

instance : Inter ConcreteType := ⟨ConcreteType.inter⟩

instance : HasSubset ConcreteType := ⟨ConcreteType.Subset⟩

instance : (a b : ConcreteType) → Decidable (a ⊆ b)
  | all, all => .isTrue trivial
  | only _, all => .isTrue trivial
  | all, only _ => .isFalse id
  | only s, only t => inferInstanceAs (Decidable (s ⊆ t))

/-- The entities that pass a test. There is no listing `all`, so it stays as it is. -/
def filter (keep : Entity → Bool) : ConcreteType → ConcreteType
  | all => all
  | only s => only (s.filter keep)

/-- The union of a list of types. -/
def unions (ts : List ConcreteType) : ConcreteType := ts.foldl (· ∪ ·) ∅

/-- The text of a type: `NONE`, `ALL`, a single member bare, or the members in parentheses. -/
def renderWith (name : Entity → String) (arrange : List String → List String) : ConcreteType → String
  | all => "ALL"
  | only s =>
    match arrange (s.members.map name) with
    | [] => "NONE"
    | [m] => m
    | ms => "(" ++ ", ".intercalate ms ++ ")"

/-- The type by kinds and positions, as in `(function#1, instance#0)`. -/
def render (t : ConcreteType) : String := t.renderWith Entity.render id

instance : Membership Entity ConcreteType :=
  ⟨fun t e => match t with | all => True | only s => e ∈ s⟩

@[simp] theorem mem_all (e : Entity) : e ∈ all := trivial

@[simp] theorem mem_only {e : Entity} {s : EntitySet} : e ∈ only s ↔ e ∈ s := .rfl

@[simp] theorem not_mem_empty (e : Entity) : ¬ e ∈ (∅ : ConcreteType) := EntitySet.not_mem_empty e

@[simp] theorem mem_ofList {e : Entity} {l : List Entity} : e ∈ ofList l ↔ e ∈ l :=
  EntitySet.mem_ofList

@[simp] theorem mem_single {e x : Entity} : x ∈ single e ↔ x = e := by
  simp [single]

@[simp] theorem mem_union {e : Entity} {a b : ConcreteType} : e ∈ a ∪ b ↔ e ∈ a ∨ e ∈ b := by
  cases a with
  | all => cases b <;> exact ⟨fun _ => .inl trivial, fun _ => trivial⟩
  | only s =>
    cases b with
    | all => exact ⟨fun _ => .inr trivial, fun _ => trivial⟩
    | only t => exact EntitySet.mem_union

@[simp] theorem mem_inter {e : Entity} {a b : ConcreteType} : e ∈ a ∩ b ↔ e ∈ a ∧ e ∈ b := by
  cases a with
  | all => exact ⟨fun h => ⟨trivial, by cases b <;> exact h⟩, fun h => by cases b <;> exact h.2⟩
  | only s =>
    cases b with
    | all => exact ⟨fun h => ⟨h, trivial⟩, fun h => h.1⟩
    | only t => exact EntitySet.mem_inter

end ConcreteType

end TypeFlow
