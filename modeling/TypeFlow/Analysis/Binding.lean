import TypeFlow.Analysis.Inference

/-!
# Binding

What calls, allocations and property assignments assign to. A call binds its arguments
to the parameters of every function that the callee may be, and its receiver as `this`:

* `receiver.method(args)` binds the receiver;
* `f.call(receiver, args)` binds the first argument and shifts the others;
* `f(args)` binds no receiver;
* a callee that may be anything lets the functions among the arguments escape.

Functions that reach ambient code are taken to be called back with what the signature
declares, or with anything.
-/

namespace TypeFlow

/-- A type to be joined into a slot. -/
structure Assignment where
  slot : SlotId
  type : ConcreteType

namespace AnalysisM

section Callbacks

variable (p : Program)

/-- The declared type widened, or anything where nothing is declared. -/
def widen? : Option DeclaredType → AnalysisM ConcreteType
  | some d => widen p d
  | none => return .all

/-- Calls back one function with what a signature promises. -/
def callBack (signature : Option Signature) (f : FnRef) : AnalysisM (List Assignment) := do
  let a ← get
  match a.function? f with
  | none => return []
  | some e =>
    let bound ← gather (fun (x, i) => do
      let t ← widen? p (signature.bind (·.params[i]?))
      return [⟨x, t⟩]) (a.graph.paramsOf e.body).zipIdx
    match a.graph.own e.body SlotName.this with
    | none => return bound
    | some x =>
      let t ← widen? p (signature.bind (·.thisType))
      return bound ++ [⟨x, t⟩]

/-- Calls back the functions of an argument whose declared type is given. -/
def bindCallback (declared : Option DeclaredType) (arg : ConcreteType) :
    AnalysisM (List Assignment) :=
  gather (callBack p (declared.bind DeclaredType.signature?)) arg.functions

/-- An ambient function `d` may call back the functions of its argument at position `i`. -/
def callBackArgument (d : FunctionDecl) (i : Nat) (arg : ConcreteType) : AnalysisM (List Assignment) :=
  if d.isAmbient then bindCallback p d.signature.params[i]? arg else return []

end Callbacks

variable (env : Setup) (s : ScopeId)

/-- The functions among the arguments may be called with anything. -/
def escapeArguments (args : List Expr) : AnalysisM (List Assignment) :=
  gather (fun arg => do
    let t ← infer env s arg
    bindCallback env.program none t) args

/-- Binds the argument at position `i` of a call of the function `d`. -/
def bindArgument (d : FunctionDecl) (params : List SlotId) (arg : Expr) (i : Nat) :
    AnalysisM (List Assignment) := do
  let t ← infer env s arg
  let calledBack ← callBackArgument env.program d i t
  match params[i]? with
  | some x => return calledBack ++ [⟨x, t⟩]
  | none => return calledBack

/-- Binds receiver and arguments in one function. -/
def bindFunction (this : ConcreteType) (args : List Expr) (f : FnRef) :
    AnalysisM (List Assignment) := do
  let a ← get
  match a.function? f with
  | none => return []
  | some e =>
    let d : FunctionDecl ← env.program.demandFunction e.decl
    let receiver : List Assignment :=
      match a.graph.own e.body SlotName.this with
      | some x => if this = ∅ then [] else [⟨x, this⟩]
      | none => []
    let bound ← gather (fun (arg, i) => bindArgument env s d (a.graph.paramsOf e.body) arg i)
      args.zipIdx
    return receiver ++ bound

/-- Binds receiver and arguments in every function that the callee may be. -/
def bindCallees (callees this : ConcreteType) (args : List Expr) : AnalysisM (List Assignment) :=
  match callees with
  | .all => escapeArguments env s args
  | .only _ => gather (bindFunction env s this args) callees.functions

/-- The receiver that a call through the property `call` passes: its first argument. -/
def explicitReceiver : List Expr → AnalysisM ConcreteType
  | first :: _ => infer env s first
  | [] => return .all

/-- Binds a call through the property `call`: a function in the receiver is called with the
first argument as receiver, and what objects hold under that name is called as a method. -/
def bindExplicitCall (receiver callees : ConcreteType) (args : List Expr) :
    AnalysisM (List Assignment) := do
  let direct := receiver.functions
  let this ← explicitReceiver env s args
  let bound ← gather (bindFunction env s this args.tail) direct
  let methods := callees.filter fun m => m.function?.all fun f => decide (f ∉ direct)
  let objects := receiver.filter fun m => m.object?.isSome
  let rest ← bindCallees env s methods objects args
  return bound ++ rest

/-- **Binds a call.** -/
def bindCall (callee : Expr) (args : List Expr) : AnalysisM (List Assignment) := do
  match callee with
  | ⟨.prop receiver property, declared⟩ =>
    let this ← infer env s receiver
    match this with
    | .all => escapeArguments env s args
    | .only _ =>
      let callees ← infer env s ⟨.prop receiver property, declared⟩
      if property = PropertyName.call then bindExplicitCall env s this callees args
      else bindCallees env s callees this args
  | callee =>
    let callees ← infer env s callee
    bindCallees env s callees ∅ args

/-- Allocates the object that one constructor makes, and binds it as the receiver. -/
def bindConstructor (args : List Expr) (f : FnRef) : AnalysisM (List Assignment) := do
  let a ← get
  match (a.function? f).bind (·.object) with
  | some o =>
    recordAllocation o
    bindFunction env s (.object o) args f
  | none => bindFunction env s ∅ args f

/-- **Binds an allocation.** -/
def bindConstruct (callee : Expr) (args : List Expr) : AnalysisM (List Assignment) := do
  let callees ← infer env s callee
  match callees with
  | .all => throw .unboundedConstructor
  | .only _ => gather (bindConstructor env s args) callees.functions

/-- The slot that assigning a property of one entity writes to. An object takes the slot that
the name stands for in its chain, or else a new slot of its own. The prototype of a function
is fixed, so assigning it writes nowhere. -/
def entitySlot (name : String) : Entity → AnalysisM (List SlotId)
  | .object o => do
    let a ← get
    match a.object? o with
    | none => return []
    | some e =>
      match a.graph.lookup e.scope name with
      | some x => return [x]
      | none =>
        let x ← onGraph (GraphM.declare e.scope name)
        return [x]
  | .function f => do
    if name = PropertyName.prototype then return []
    else
      let a ← get
      match a.function? f with
      | none => return []
      | some e =>
        match a.graph.own e.statics name with
        | some x => return [x]
        | none =>
          let x ← onGraph (GraphM.declare e.statics name)
          return [x]

/-- Every slot of a name that a property of some entity now stands for. -/
def allPropertySlots (a : Analysis) (name : String) : List SlotId :=
  a.objects.filterMap (fun e => a.graph.lookup e.scope name) ++
    a.functions.filterMap fun e => a.graph.own e.statics name

/-- **The slots that assigning a property writes to**, each once. A receiver that may be
anything reaches every slot that exists, and adds none. -/
def propertySlots (receiver : ConcreteType) (name : String) : AnalysisM (List SlotId) :=
  match receiver with
  | .all => do
    let a ← get
    return enqueue [] (allPropertySlots a name)
  | .only m => do
    let slots ← gather (entitySlot name) m.members
    return enqueue [] slots

/-- What evaluating an action in a scope assigns. -/
def evaluate : Action → AnalysisM (List Assignment)
  | .assign x value => do
    let t ← infer env s value
    return [⟨x, t⟩]
  | .ret x value => do
    let t ← infer env s value
    return [⟨x, t⟩]
  | .assignProperty receiver property value => do
    let r ← infer env s receiver
    let t ← infer env s value
    if t = ∅ then return []
    else
      let slots ← propertySlots r property
      return slots.map (⟨·, t⟩)
  | .call callee args => bindCall env s callee args
  | .construct callee args => bindConstruct env s callee args
  | .allocate literal => do
    let t ← infer env s literal
    recordAllocations t.objects
    return []
  | .declareFunction x f => do
    let r ← createFunction env.program f s
    return [⟨x, .function r⟩]
  | .declaredFlow x declared => do
    let t ← widen env.program declared
    return [⟨x, t⟩]

end AnalysisM

end TypeFlow
