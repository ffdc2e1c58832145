import TypeFlow.Proofs.FollowedInference
import TypeFlow.Proofs.Widening

/-!
# Following the calls of another run

A call in an embedded state binds what the same call binds in the state that it is embedded in: the twin of every
parameter, to at least as much. Where the other run knows less of a callee, of a receiver or of what a function from
outside calls back, it binds something else, so this is for definite calls only.

* `gather_follows`: going through a list.
* `AnalysisM.inferCall_subset`: a receiver that is inferred twice.
* `AnalysisM.bindCall_follows`, `AnalysisM.bindConstruct_follows`: calls and allocations.
-/

namespace TypeFlow

variable {p : Program} {a b c : Analysis} {σ : Setting}

/-- An assignment in one state is covered by one in another: to the twin of the slot, of as much. -/
def Analysis.Lands (a b : Analysis) (z w : Assignment) : Prop :=
  a.Twins b z.slot w.slot ∧ a.Within b z.type w.type

/-! ## Lists -/

section Lists

variable {α β : Type} {R : Analysis → Analysis → β → β → Prop} {zs zs' ws ws' : List β}

/-- Everything on a list has a counterpart in the other run. -/
def Setting.Covers (σ : Setting) (R : Analysis → Analysis → β → β → Prop) (c : Analysis) (zs ws : List β) : Prop :=
  ∀ z ∈ zs, ∃ w ∈ ws, R c σ.host z w

/-- What is assigned, and what the other run assigns. -/
abbrev Setting.Assigns (σ : Setting) : Analysis → List Assignment → List Assignment → Prop := σ.Covers Analysis.Lands

theorem covers_nil : σ.Covers R c [] ws := fun _ h => absurd h List.not_mem_nil

theorem covers_singleton {z w : β} (h : R c σ.host z w) : σ.Covers R c [z] [w] := by
  intro y hy
  obtain rfl := List.mem_singleton.1 hy
  exact ⟨w, List.mem_singleton_self w, h⟩

theorem assigns_singleton {x x' : SlotId} {t t' : ConcreteType} (hx : c.Twins σ.host x x') (ht : c.Within σ.host t t') :
    σ.Assigns c [⟨x, t⟩] [⟨x', t'⟩] := covers_singleton ⟨hx, ht⟩

theorem Setting.Covers.of_subset (h : σ.Covers R c zs ws) (hws : ws ⊆ ws') : σ.Covers R c zs ws' := by
  intro z hz
  obtain ⟨w, hw, hzw⟩ := h z hz
  exact ⟨w, hws hw, hzw⟩

theorem Setting.Covers.append_left (h : σ.Covers R c zs ws) (k : σ.Covers R c zs' ws) : σ.Covers R c (zs ++ zs') ws :=
  List.forall_mem_append.2 ⟨h, k⟩

theorem Setting.Covers.append (h : σ.Covers R c zs ws) (k : σ.Covers R c zs' ws') :
    σ.Covers R c (zs ++ zs') (ws ++ ws') :=
  (h.of_subset (List.subset_append_left ..)).append_left (k.of_subset (List.subset_append_right ..))

/-- A relation between the runs that lasts. -/
def Lasting (R : Analysis → Analysis → β → β → Prop) : Prop :=
  ∀ a b c z w, R a b z w → a.Grows c → R c b z w

theorem lasting_lands : Lasting Analysis.Lands := fun _ _ _ _ _ h hac => ⟨h.1.grows hac, h.2.grows hac⟩

theorem lasting_twins : Lasting Analysis.Twins := fun _ _ _ _ _ => Analysis.Twins.grows

theorem Setting.Covers.grows (hR : Lasting R) (h : σ.Covers R a zs ws) (hac : a.Grows c) : σ.Covers R c zs ws := by
  intro z hz
  obtain ⟨w, hw, hzw⟩ := h z hz
  exact ⟨w, hw, hR _ _ _ _ _ hzw hac⟩

/-- Where going through a list changes nothing, no step of it does. -/
theorem gather_each {g : α → AnalysisM (List β)} : ∀ {ys : List α} {ws : List β}, (∀ y ∈ ys, Moves σ.Does (g y)) →
    AnalysisM.gather g ys σ.host = .ok ws σ.host → ∀ y ∈ ys, ∃ vs, g y σ.host = .ok vs σ.host ∧ vs ⊆ ws
  | [], _, _, _ => fun _ h => absurd h List.not_mem_nil
  | y :: ys, ws, hg, h => by
    obtain ⟨hy, hys⟩ := List.forall_mem_cons.1 hg
    have hgather := AnalysisM.gather_does hys
    obtain ⟨vs, hvs, hrest⟩ := split_host hy (fun _ => hgather.bind fun _ => moves_pure _) h
    obtain ⟨us, hus, hlast⟩ := split_host hgather (fun _ => moves_pure _) hrest
    cases hlast
    refine List.forall_mem_cons.2 ⟨⟨vs, hvs, List.subset_append_left ..⟩, fun x hx => ?_⟩
    obtain ⟨vs', hvs', hsub⟩ := gather_each hys hus x hx
    exact ⟨vs', hvs', List.Subset.trans hsub (List.subset_append_right ..)⟩

/-- **Going through a list** is followed by going through another, if every step is followed by some. -/
theorem gather_follows (hR : Lasting R) {f g : α → AnalysisM (List β)} {xs ys : List α}
    (hg : ∀ y ∈ ys, Moves σ.Does (g y)) (ha : σ.Guest a)
    (h : ∀ x ∈ xs, ∃ y ∈ ys, ∀ c, σ.Guest c → a.Grows c → Follows σ (f x) (g y) (σ.Covers R) c) :
    Follows σ (AnalysisM.gather f xs) (AnalysisM.gather g ys) (σ.Covers R) a := by
  intro zs c ws hx hy
  -- on the first list only: the host does not change, so the steps of the second may be taken in any order
  induction xs generalizing a zs with
  | nil =>
    cases hx
    exact ⟨ha, refl_of _ _, covers_nil⟩
  | cons x xs ih =>
    obtain ⟨zs₁, d, hd, hrest⟩ := bind_ok hx
    obtain ⟨zs₂, e, he, hlast⟩ := bind_ok hrest
    cases hlast
    obtain ⟨⟨y, hmem, hfollows⟩, hxs⟩ := List.forall_mem_cons.1 h
    obtain ⟨vs, hvs, hsub⟩ := gather_each hg hy y hmem
    obtain ⟨hguest, had, hcovers⟩ := hfollows a ha (refl_of _ a) zs₁ d vs hd hvs
    have hnext : ∀ x ∈ xs, ∃ y ∈ ys, ∀ c, σ.Guest c → d.Grows c → Follows σ (f x) (g y) (σ.Covers R) c := by
      intro x hx
      obtain ⟨y, hy, hfollows⟩ := hxs x hx
      exact ⟨y, hy, fun c hc hdc => hfollows c hc (trans_of Analysis.Grows had hdc)⟩
    obtain ⟨hc, hdc, hcovers'⟩ := ih hguest hnext zs₂ he
    exact ⟨hc, trans_of Analysis.Grows had hdc, ((hcovers.grows hR hdc).of_subset hsub).append_left hcovers'⟩

end Lists

/-! ## Callbacks -/

namespace AnalysisM

theorem exists_param {R : SlotId → SlotId → Prop} {xs xs' : List SlotId} (h : List.Forall₂ R xs xs') {i : Nat}
    {x : SlotId} (hx : xs[i]? = some x) : ∃ x', xs'[i]? = some x' ∧ R x x' := by
  obtain ⟨hi, rfl⟩ := List.getElem?_eq_some_iff.1 hx
  have hi' : i < xs'.length := h.length_eq ▸ hi
  exact ⟨xs'[i], List.getElem?_eq_getElem hi', h.get hi hi'⟩

theorem widen?_follows (hσ : σ.Hosted) (ha : σ.Guest a) (d : Option DeclaredType) :
    Follows σ (widen? σ.env.program d) (widen? σ.env.program d) σ.Within a := by
  cases d with
  | none => exact follows_pure ha (Analysis.within_all _)
  | some d => exact widen_follows hσ d a ha

theorem callBack_follows (hσ : σ.Hosted) (ha : σ.Guest a) {f f' : FnRef}
    (hmatch : a.Matches σ.host (.function f) (.function f')) (signature : Option Signature) :
    Follows σ (callBack σ.env.program signature f) (callBack σ.env.program signature f') σ.Assigns a := by
  obtain ⟨_, q, q', heq, hq, hq', hdecl⟩ := Analysis.matches_function hmatch
  cases heq
  have hmem := List.mem_of_getElem? hq
  have hmem' := List.mem_of_getElem? hq'
  have hparams := ha.params_rel hσ.toChart hmem hmem' hdecl
  have hthis := ha.own_rel hσ.toChart rfl (.body hmem) (Analysis.owns_body hmem' hdecl) SlotName.this
  unfold callBack
  refine follows_get ?_
  rw [hq, hq']
  dsimp only
  have hg (xi : SlotId × Nat) : Moves σ.Does (do
      let t ← widen? σ.env.program (signature.bind (·.params[xi.2]?))
      return [(⟨xi.1, t⟩ : Assignment)]) := (widen?_does _).bind fun _ => moves_pure _
  refine (gather_follows lasting_lands (fun y _ => hg y) ha ?_).bind (gather_does fun y _ => hg y) (fun bound => ?_) ?_
  · rintro ⟨x, i⟩ hx
    obtain ⟨x', hx', htwins⟩ := exists_param hparams (List.mem_zipIdx_iff_getElem?.1 hx)
    refine ⟨(x', i), List.mem_zipIdx_iff_getElem?.2 hx', fun c hc hac => ?_⟩
    refine (widen?_follows hσ hc _).bind (widen?_does _) (fun _ => moves_pure _) fun t d t' hd hcd htt' => ?_
    exact follows_pure hd (assigns_singleton (htwins.grows (trans_of Analysis.Grows hac hcd)) htt')
  · split
    · exact moves_pure _
    · exact (widen?_does _).bind fun _ => moves_pure _
  · intro bound c bound' hc hac hbound
    generalize a.graph.own q.body SlotName.this = o at hthis
    generalize σ.host.graph.own q'.body SlotName.this = o' at hthis
    cases hthis with
    | none => exact follows_pure hc hbound
    | some htwins =>
      refine (widen?_follows hσ hc _).bind (widen?_does _) (fun _ => moves_pure _) fun t d t' hd hcd htt' => ?_
      have hland := assigns_singleton (htwins.grows (trans_of Analysis.Grows hac hcd)) htt'
      exact follows_pure hd ((hbound.grows lasting_lands hcd).append hland)

theorem bindCallback_follows (hσ : σ.Hosted) (ha : σ.Guest a) {t t' : ConcreteType} (htt' : a.Within σ.host t t')
    (hall : t' = .all → t = .all) (declared : Option DeclaredType) :
    Follows σ (bindCallback σ.env.program declared t) (bindCallback σ.env.program declared t') σ.Assigns a := by
  refine gather_follows lasting_lands (fun f _ => callBack_does _ f) ha fun f hf => ?_
  cases t' with
  | all =>
    rw [hall rfl] at hf
    exact absurd hf List.not_mem_nil
  | only m =>
    obtain ⟨f', q, q', hf', hq, hq', hdecl⟩ := htt'.exists_function hf
    exact ⟨f', hf', fun c hc hac => callBack_follows hσ hc (.grows (.of_function hq hq' hdecl) hac) _⟩

theorem callBackArgument_follows (hσ : σ.Hosted) (ha : σ.Guest a) {t t' : ConcreteType} (htt' : a.Within σ.host t t')
    {d : FunctionDecl} (hall : t' = .all → t = .all ∨ d.isAmbient = false) (i : Nat) :
    Follows σ (callBackArgument σ.env.program d i t) (callBackArgument σ.env.program d i t') σ.Assigns a := by
  unfold callBackArgument
  split
  · rename_i hambient
    refine bindCallback_follows hσ ha htt' (fun h => (hall h).resolve_right ?_) _
    rw [hambient]
    exact Bool.noConfusion
  · exact follows_pure ha covers_nil

/-! ## Calls -/

end AnalysisM

namespace Setting

/-- What is handed on is a text of the owner, and inferring it does not depend on the order. -/
structure Ready (σ : Setting) (args : List Expr) : Prop where
  mentions : Expr.mentionsAll args ⊆ σ.mentions
  sure : ∀ arg ∈ args, ∀ q ∈ arg.inferred, σ.env.sure σ.host σ.there q = true

/-- A function of the other run has a body. -/
def Domestic (σ : Setting) (f : FnRef) : Prop :=
  ∀ q d, σ.host.function? f = some q → σ.env.program.function? q.decl = some d → d.isAmbient = false

/-- The arguments are clear, or no function among the callees calls them back. -/
def Tame (σ : Setting) (args : List Expr) (callees : ConcreteType) : Prop :=
  (∀ arg ∈ args, σ.env.clear σ.host σ.there arg = true) ∨ callees ≠ .all ∧ ∀ f ∈ callees.functions, σ.Domestic f

theorem Ready.tail {args : List Expr} (h : σ.Ready args) : σ.Ready args.tail := by
  cases args with
  | nil => exact h
  | cons arg args => exact ⟨(List.append_subset.1 h.mentions).2, fun e he => h.sure e (List.mem_cons_of_mem _ he)⟩

theorem Tame.filter {args : List Expr} {t : ConcreteType} (h : σ.Tame args t) (keep : Entity → Bool) :
    σ.Tame args (t.filter keep) := by
  refine h.imp_right fun hdomestic => ?_
  cases t with
  | all => exact absurd rfl hdomestic.1
  | only m =>
    refine ⟨nofun, fun f hf => hdomestic.2 f (ConcreteType.mem_functions.2 ?_)⟩
    exact (EntitySet.mem_filter.1 (ConcreteType.mem_functions.1 hf)).1

end Setting

namespace AnalysisM

section Calls

variable (hσ : σ.Hosted) (htext : σ.env.program.HasText σ.owner) (ha : σ.Guest a) {args : List Expr}
  (hargs : σ.Ready args)
include hσ htext ha hargs

theorem escapeArguments_follows (hclear : ∀ arg ∈ args, σ.env.clear σ.host σ.there arg = true) :
    Follows σ (escapeArguments σ.env σ.here args) (escapeArguments σ.env σ.there args) σ.Assigns a := by
  have hmentions := mentions_subset_of_mem hargs.mentions
  have hg : ∀ arg ∈ args, Moves σ.Does (infer σ.env σ.there arg >>= fun t => bindCallback σ.env.program none t) :=
    fun arg harg => (infer_does arg (hmentions arg harg)).bind fun t => bindCallback_does none t
  refine gather_follows lasting_lands hg ha fun arg harg => ⟨arg, harg, fun c hc _ => ?_⟩
  refine (infer_follows hσ htext arg c hc (hmentions arg harg) (hargs.sure arg harg)).bind_with
    (infer_does arg (hmentions arg harg)) (fun t => bindCallback_does none t) fun t d t' ht ht' hd _ htt' => ?_
  refine bindCallback_follows hσ hd htt' ?_ none
  rintro rfl
  exact eq_all_of_clear hσ htext hc.toStage (hmentions arg harg) (hclear arg harg) ht ht'

omit hσ htext ha hargs in
theorem bindArgument_does (d : FunctionDecl) (xs : List SlotId) {arg : Expr} (harg : arg.mentions ⊆ σ.mentions)
    (i : Nat) : Moves σ.Does (bindArgument σ.env σ.there d xs arg i) := by
  refine (infer_does arg harg).bind fun t => (callBackArgument_does d i t).bind fun called => ?_
  split
  · exact moves_pure _
  · exact moves_pure _

omit hargs in
/-- One argument, bound to a parameter. -/
theorem bindArgument_follows {arg : Expr} (hmentions : arg.mentions ⊆ σ.mentions)
    (hsure : ∀ q ∈ arg.inferred, σ.env.sure σ.host σ.there q = true) {d : FunctionDecl}
    (htame : σ.env.clear σ.host σ.there arg = true ∨ d.isAmbient = false) {xs xs' : List SlotId}
    (hxs : List.Forall₂ (a.Twins σ.host) xs xs') (i : Nat) :
    Follows σ (bindArgument σ.env σ.here d xs arg i) (bindArgument σ.env σ.there d xs' arg i) σ.Assigns a := by
  refine (infer_follows hσ htext arg a ha hmentions hsure).bind_with (infer_does arg hmentions)
    (fun t => (callBackArgument_does d i t).bind fun called => ?_) fun t c t' ht ht' hc hac htt' => ?_
  · split
    · exact moves_pure _
    · exact moves_pure _
  have hall : t' = .all → t = .all ∨ d.isAmbient = false := by
    rintro rfl
    exact htame.imp_left fun hclear => eq_all_of_clear hσ htext ha.toStage hmentions hclear ht ht'
  refine (callBackArgument_follows hσ hc htt' hall i).bind (callBackArgument_does d i t') (fun called => ?_)
    fun called e called' he hce hcalled => ?_
  · split
    · exact moves_pure _
    · exact moves_pure _
  cases hxi : xs[i]? with
  | none =>
    cases hxi' : xs'[i]? with
    | none => exact follows_pure he hcalled
    | some x' => exact follows_pure he (hcalled.of_subset (List.subset_append_left ..))
  | some x =>
    obtain ⟨x', hx', htwins⟩ := exists_param hxs hxi
    rw [hx']
    have hland := assigns_singleton (htwins.grows (trans_of Analysis.Grows hac hce)) (htt'.grows hce)
    exact follows_pure he (hcalled.append hland)

omit hσ htext ha hargs in
/-- The receiver of a function, if it binds one. -/
theorem receiver_assigns {this this' : ConcreteType} (hthis : c.Within σ.host this this') {o o' : Option SlotId} :
    Option.Rel (c.Twins σ.host) o o' →
    σ.Assigns c (match o with | some x => if this = ∅ then [] else [⟨x, this⟩] | none => [])
      (match o' with | some x => if this' = ∅ then [] else [⟨x, this'⟩] | none => []) := by
  intro ho
  cases ho with
  | none => exact covers_nil
  | some htwins =>
    dsimp only
    split
    · exact covers_nil
    · rename_i hne
      have hne' : this' ≠ ∅ := by
        rintro rfl
        exact hne (Analysis.Within.eq_empty hthis)
      rw [if_neg hne']
      exact assigns_singleton htwins hthis

/-- **One function, called**: its receiver and its arguments. -/
theorem bindFunction_follows {this this' : ConcreteType} (hthis : a.Within σ.host this this') {f f' : FnRef}
    (hmatch : a.Matches σ.host (.function f) (.function f'))
    (htame : (∀ arg ∈ args, σ.env.clear σ.host σ.there arg = true) ∨ σ.Domestic f') :
    Follows σ (bindFunction σ.env σ.here this args f) (bindFunction σ.env σ.there this' args f') σ.Assigns a := by
  obtain ⟨_, q, q', heq, hq, hq', hdecl⟩ := Analysis.matches_function hmatch
  cases heq
  have hmem := List.mem_of_getElem? hq
  have hmem' := List.mem_of_getElem? hq'
  have hparams := ha.params_rel hσ.toChart hmem hmem' hdecl
  have hown := ha.own_rel hσ.toChart rfl (.body hmem) (Analysis.owns_body hmem' hdecl) SlotName.this
  have hmentions := mentions_subset_of_mem hargs.mentions
  unfold bindFunction
  refine follows_get ?_
  rw [hq, hq']
  dsimp only
  rw [hdecl]
  refine follows_demandFunction fun d hd => ?_
  have hg : ∀ y ∈ args.zipIdx, Moves σ.Does (bindArgument σ.env σ.there d (σ.host.graph.paramsOf q'.body) y.1 y.2) :=
    fun y hy => bindArgument_does d _ (hmentions y.1 (List.fst_mem_of_mem_zipIdx hy)) y.2
  refine (gather_follows lasting_lands hg ha ?_).bind (gather_does hg) (fun _ => moves_pure _) ?_
  · rintro ⟨arg, i⟩ hy
    have harg := List.fst_mem_of_mem_zipIdx hy
    refine ⟨(arg, i), hy, fun c hc hac => ?_⟩
    refine bindArgument_follows hσ htext hc (hmentions arg harg) (hargs.sure arg harg) ?_
      (hparams.imp fun _ _ htwins => htwins.grows hac) i
    exact htame.imp (fun hclear => hclear arg harg) fun hdomestic => hdomestic q' d hq' (hdecl ▸ hd)
  · intro bound c bound' hc hac hbound
    refine follows_pure hc (Setting.Covers.append ?_ hbound)
    exact (receiver_assigns hthis hown).grows lasting_lands hac

/-- **All functions that a callee may be.** -/
theorem bindCallees_follows {callees callees' this this' : ConcreteType} (hcallees : a.Within σ.host callees callees')
    (hall : callees' = .all → callees = .all) (hthis : a.Within σ.host this this') (htame : σ.Tame args callees') :
    Follows σ (bindCallees σ.env σ.here callees this args) (bindCallees σ.env σ.there callees' this' args)
      σ.Assigns a := by
  cases callees' with
  | all =>
    rw [hall rfl]
    exact escapeArguments_follows hσ htext ha hargs (htame.resolve_right fun h => h.1 rfl)
  | only m' =>
    cases callees with
    | all => exact hcallees.elim
    | only m =>
      refine gather_follows lasting_lands (fun f _ => bindFunction_does hargs.mentions this' f) ha fun f hf => ?_
      obtain ⟨f', q, q', hf', hq, hq', hdecl⟩ := hcallees.exists_function hf
      refine ⟨f', hf', fun c hc hac => ?_⟩
      exact bindFunction_follows hσ htext hc hargs (hthis.grows hac) (.grows (.of_function hq hq' hdecl) hac)
        (htame.imp_right fun h => h.2 f' hf')

theorem explicitReceiver_follows :
    Follows σ (explicitReceiver σ.env σ.here args) (explicitReceiver σ.env σ.there args) σ.Within a := by
  cases args with
  | nil => exact follows_pure ha (Analysis.within_all _)
  | cons first rest =>
    exact infer_follows hσ htext first a ha (List.append_subset.1 hargs.mentions).1
      (hargs.sure first List.mem_cons_self)

/-- What is called as a method in a call through the property `call`. -/
theorem bindMethods_follows {R C C' : ConcreteType} {m' : EntitySet} (hR : a.Within σ.host R (.only m'))
    (hC : a.Within σ.host C C') (hall : C' = .all → C = .all)
    (hplain : (ConcreteType.only m').functions = [] ∨ C ⊆ R) (htame : σ.Tame args C') :
    Follows σ
      (bindCallees σ.env σ.here (C.filter fun e => e.function?.all fun f => decide (f ∉ R.functions))
        (R.filter fun e => e.object?.isSome) args)
      (bindCallees σ.env σ.there
        (C'.filter fun e => e.function?.all fun f => decide (f ∉ (ConcreteType.only m').functions))
        ((ConcreteType.only m').filter fun e => e.object?.isSome) args) σ.Assigns a := by
  rcases hplain with hnone | hsub
  · -- no callee of the other run is called directly
    refine bindCallees_follows hσ htext ha hargs (hC.filter fun e e' _ _ => ?_) (fun h => ?_)
      (hR.filter fun e e' hmatch he => ?_) (htame.filter _)
    · rw [hnone]
      cases e' <;> simp [Entity.function?]
    · cases C' with
      | all => rw [hall rfl]; rfl
      | only m => cases h
    · cases e with
      | function f => cases he
      | object o =>
        obtain ⟨o', -, -, rfl, -⟩ := Analysis.matches_object hmatch
        rfl
  · -- all callees are called directly
    cases R with
    | all => exact hR.elim
    | only m =>
      cases C with
      | all => exact hsub.elim
      | only k =>
        have hnil : (ConcreteType.only (k.filter fun e => e.function?.all fun f =>
            decide (f ∉ (ConcreteType.only m).functions))).functions = [] := by
          refine List.eq_nil_iff_forall_not_mem.2 fun f hf => ?_
          obtain ⟨hmem, hkeep⟩ := EntitySet.mem_filter.1 (ConcreteType.mem_functions.1 hf)
          exact of_decide_eq_true hkeep (ConcreteType.mem_functions.2 (hsub _ hmem))
        intro zs c ws hx hy
        rw [ConcreteType.filter, bindCallees, hnil] at hx
        cases hx
        exact ⟨ha, refl_of _ _, covers_nil⟩

/-- **A call through the property `call`** of receivers that are no functions, or nothing but the callees. -/
theorem bindExplicitCall_follows {R C C' : ConcreteType} {m' : EntitySet} (hR : a.Within σ.host R (.only m'))
    (hC : a.Within σ.host C C') (hall : C' = .all → C = .all)
    (hplain : (ConcreteType.only m').functions = [] ∨ C ⊆ R) (htameR : σ.Tame args (.only m'))
    (htameC : σ.Tame args C') :
    Follows σ (bindExplicitCall σ.env σ.here R C args) (bindExplicitCall σ.env σ.there (.only m') C' args)
      σ.Assigns a := by
  have hdoes (this : ConcreteType) : ∀ f ∈ (ConcreteType.only m').functions,
      Moves σ.Does (bindFunction σ.env σ.there this args.tail f) :=
    fun f _ => bindFunction_does hargs.tail.mentions this f
  have hrest (callees this : ConcreteType) : Moves σ.Does (bindCallees σ.env σ.there callees this args) :=
    bindCallees_does hargs.mentions callees this
  refine (explicitReceiver_follows hσ htext ha hargs).bind (explicitReceiver_does hargs.mentions)
    (fun this => (gather_does (hdoes this)).bind fun _ => (hrest _ _).bind fun _ => moves_pure _)
    fun this c this' hc hac hthis => ?_
  have hdirect : Follows σ (gather (bindFunction σ.env σ.here this args.tail) R.functions)
      (gather (bindFunction σ.env σ.there this' args.tail) (ConcreteType.only m').functions) σ.Assigns c := by
    refine gather_follows lasting_lands (hdoes this') hc fun f hf => ?_
    obtain ⟨f', q, q', hf', hq, hq', hdecl⟩ := hR.exists_function hf
    refine ⟨f', hf', fun d hd hcd => ?_⟩
    have had := trans_of Analysis.Grows hac hcd
    refine bindFunction_follows hσ htext hd hargs.tail (hthis.grows hcd) (.grows (.of_function hq hq' hdecl) had) ?_
    exact htameR.imp (fun hclear arg harg => hclear arg (List.mem_of_mem_tail harg)) fun h => h.2 f' hf'
  refine hdirect.bind (gather_does (hdoes this')) (fun _ => (hrest _ _).bind fun _ => moves_pure _)
    fun bound d bound' hd hcd hbound => ?_
  have had := trans_of Analysis.Grows hac hcd
  refine (bindMethods_follows hσ htext hd hargs (hR.grows had) (hC.grows had) hall hplain htameC).bind (hrest _ _)
    (fun _ => moves_pure _) fun rest e rest' he hde hrest => ?_
  exact follows_pure he ((hbound.grows lasting_lands hde).append hrest)

end Calls

/-! ## Receivers that are inferred twice -/

/-- Inferring what mentions no function makes nothing present. -/
theorem infers_samePresent {env : Setup} {s : ScopeId} {ms : List Mention} (henv : env.config.memoize = false)
    (hms : ∀ f, .function f ∉ ms) : Infers env s ms Analysis.SamePresent := by
  refine ⟨createObject_samePresent, fun f hf => absurd hf (hms f), fun t d a => ?_⟩
  unfold finalState
  rw [narrow_eq henv]
  rfl

/-- Inference finds the same again if it has made nothing present. -/
theorem infer_again {env : Setup} {s : ScopeId} {e : Expr} {t u : ConcreteType} {d : Analysis}
    (ha : a.Valid env.program) (hs : s.index < a.graph.scopes.length) (ht : infer env s e a = .ok t c)
    (hsame : a.SamePresent c) (hu : infer env s e c = .ok u d) : u = t := by
  have hinfer := infer_evaluates (w := false) e s a ha hs
  obtain ⟨hac, -, -⟩ := hinfer.proceeds.of_ok ht
  have hcalm : a.Calm env.program c := hac.calm_of_not_assigned hsame.lengths.1 hsame.lengths.2
  obtain ⟨_, hrepeat, rfl⟩ := hinfer.repeats t c ht hcalm c (Analysis.Calm.refl c)
  have hsc := Nat.lt_of_lt_of_le hs hac.grows.scopes_le
  obtain ⟨-, -, hplain⟩ := (infer_evaluates (w := false) e s c (hac.valid ha) hsc).proceeds.of_ok hu
  rw [hrepeat] at hplain
  exact (EStateM.Result.ok.inj hplain).1.symm

/-- A function expression finds its function again. -/
theorem inferFunction_again {env : Setup} {s : ScopeId} (henv : env.config.memoize = false) {f : FunctionId}
    {declared : Option DeclaredType} {t u : ConcreteType} {d : Analysis} (ha : a.Valid env.program)
    (hs : s.index < a.graph.scopes.length) (ht : infer env s ⟨.function f, declared⟩ a = .ok t c)
    (hu : infer env s ⟨.function f, declared⟩ c = .ok u d) : u = t := by
  have hstays (t : ConcreteType) (a : Analysis) : ∃ v, narrow? env t declared a = .ok v a := by
    cases declared with
    | none => exact ⟨t, rfl⟩
    | some d => exact ⟨_, narrow_eq henv t d a⟩
  rw [infer, inferForm, bind_assoc] at ht hu
  obtain ⟨r, e, hr, hrest⟩ := bind_ok ht
  obtain ⟨v, hv⟩ := hstays (.function r) e
  rw [pure_bind, hv] at hrest
  cases hrest
  obtain ⟨-, hfound, -⟩ := (createFunction_evaluates (w := false) ha f hs).proceeds.of_ok hr
  have hagain : createFunction env.program f s c = .ok r c := by
    unfold createFunction
    rw [get_bind_apply, hfound]
    rfl
  rw [bind_apply, hagain] at hu
  dsimp only at hu
  rw [pure_bind, hv] at hu
  cases hu
  rfl

/-- Reading the property `call` of functions gives no others. -/
theorem callProperties_subset {m : EntitySet} : ∀ {es : List Entity} {a c : Analysis} {u : ConcreteType},
    (∀ e ∈ es, e ∈ m ∧ ∃ f, e = .function f) → entityProperties p PropertyName.call es a = .ok u c → u ⊆ .only m
  | [], _, _, _, _, h => by
    cases h
    exact ConcreteType.empty_subset _
  | e :: es, a, c, u, hes, h => by
    obtain ⟨⟨hmem, f, rfl⟩, hothers⟩ := List.forall_mem_cons.1 hes
    obtain ⟨v, d, hv, hrest⟩ := bind_ok h
    obtain ⟨w, d', hw, hlast⟩ := bind_ok hrest
    cases hlast
    refine ConcreteType.union_subset ?_ (callProperties_subset hothers hw)
    rw [entityProperty, functionProperty, get_bind_apply] at hv
    cases hf : a.function? f with
    | none =>
      rw [hf] at hv
      cases hv
      exact ConcreteType.empty_subset _
    | some q =>
      rw [hf] at hv
      cases hv
      intro e he
      rwa [ConcreteType.mem_single.1 he]

theorem narrowed_subset {t : ConcreteType} {m : EntitySet} (h : t ⊆ .only m) (d : DeclaredType) :
    a.narrowed p t d ⊆ .only m := by
  cases t with
  | all => exact h.elim
  | only k =>
    unfold Analysis.narrowed
    dsimp only
    split
    · exact h
    · exact fun e he => h e (EntitySet.mem_filter.1 he).1

/-- **The callees of a call through the property `call`** are among the receivers if these are functions and
the same when they are inferred again. -/
theorem inferCall_subset (hσ : σ.Hosted) (ha : σ.Guest a) {receiver : Expr} {declared : Option DeclaredType}
    {m : EntitySet} {C : ConcreteType} {d : Analysis} (hR : infer σ.env σ.here receiver a = .ok (.only m) c)
    (hfunctions : ∀ e ∈ m, ∃ f, e = .function f)
    (hagain : (∀ f, .function f ∉ receiver.mentions) ∨ ∃ f declared, receiver = ⟨.function f, declared⟩)
    (hC : infer σ.env σ.here ⟨.prop receiver PropertyName.call, declared⟩ c = .ok C d) : C ⊆ .only m := by
  obtain ⟨t, e, ht, hnarrow⟩ := bind_ok hC
  obtain ⟨u, e', hu, hread⟩ := bind_ok ht
  -- the receiver is inferred for a second time, in the state that the first time has left
  have hsame : u = .only m := by
    rcases hagain with hnone | ⟨f, declared, rfl⟩
    · have hpresent := (infer_moves (infers_samePresent hσ.forgetful hnone) receiver (List.Subset.refl _)).ok hR
      exact infer_again ha.valid ha.toStage.lt hR hpresent hu
    · exact inferFunction_again hσ.forgetful ha.valid ha.toStage.lt hR hu
  subst hsame
  have hsub : t ⊆ .only m := callProperties_subset (fun e he => ⟨he, hfunctions e he⟩) hread
  cases declared with
  | none =>
    cases hnarrow
    exact hsub
  | some d' =>
    rw [narrow?, narrow_eq hσ.forgetful] at hnarrow
    cases hnarrow
    exact narrowed_subset hsub d'

/-! ## Calls and allocations -/

section Actions

variable (hσ : σ.Hosted) (htext : σ.env.program.HasText σ.owner) (ha : σ.Guest a)
include hσ htext ha

omit hσ htext ha in
/-- Where the callees are domestic, or the arguments clear, a call is tame. -/
theorem tame_of_infer {args targets : List Expr}
    (h : (∀ e ∈ args, σ.env.clear σ.host σ.there e = true) ∨ ∀ e ∈ targets, σ.env.domestic σ.host σ.there e = true)
    {e : Expr} (he : e ∈ targets) {t : ConcreteType} (ht : infer σ.env σ.there e σ.host = .ok t σ.host) :
    σ.Tame args t := by
  refine h.imp_right fun hdomestic => ?_
  have htest := hdomestic e he
  unfold Setup.domestic Setup.typeOf? at htest
  rw [ht] at htest
  cases t with
  | all => cases htest
  | only m =>
    refine ⟨nofun, fun f hf q d hq hd => ?_⟩
    have hall := List.all_eq_true.1 htest f hf
    rw [hq, Option.all_some, hd, Option.all_some] at hall
    simpa using hall

omit htext in
/-- Where a call through the property `call` is plain, no callee of the other run is called directly, or
all callees are. -/
theorem functions_nil_or_subset {receiver : Expr} (hplain : σ.env.plainCall σ.host σ.there receiver = true)
    {R C : ConcreteType} {m' : EntitySet} {d : Analysis} {declared : Option DeclaredType}
    (hR : infer σ.env σ.here receiver a = .ok R c)
    (hR' : infer σ.env σ.there receiver σ.host = .ok (.only m') σ.host) (hwithin : c.Within σ.host R (.only m'))
    (hC : infer σ.env σ.here ⟨.prop receiver PropertyName.call, declared⟩ c = .ok C d) :
    (ConcreteType.only m').functions = [] ∨ C ⊆ R := by
  unfold Setup.plainCall Setup.typeOf? at hplain
  rw [hR'] at hplain
  simp only [Bool.or_eq_true, Bool.and_eq_true, decide_eq_true_eq] at hplain
  refine hplain.imp_right fun ⟨hobjects, hrest⟩ => ?_
  cases R with
  | all => exact hwithin.elim
  | only m =>
    refine inferCall_subset hσ ha hR (fun e he => ?_) ?_ hC
    · cases e with
      | function f => exact ⟨f, rfl⟩
      | object o =>
        obtain ⟨e', he', hmatch⟩ := hwithin _ he
        obtain ⟨o', -, -, rfl, -⟩ := Analysis.matches_object hmatch
        have hmem : o' ∈ (ConcreteType.only m').objects := ConcreteType.mem_objects.2 he'
        rw [hobjects] at hmem
        cases hmem
    · refine hrest.imp (fun hnone f hf => ?_) fun hfunction => ?_
      · have hmem : f ∈ receiver.mentions.filterMap Mention.function? := List.mem_filterMap.2 ⟨_, hf, rfl⟩
        rw [hnone] at hmem
        cases hmem
      · split at hfunction
        · exact ⟨_, _, rfl⟩
        · cases hfunction

/-- **A call.** -/
theorem bindCall_follows {callee : Expr} {args : List Expr}
    (hmentions : (Action.call callee args).mentions ⊆ σ.mentions)
    (hdefinite : (Action.call callee args).definite σ.env σ.host σ.there = true) :
    Follows σ (bindCall σ.env σ.here callee args) (bindCall σ.env σ.there callee args) σ.Assigns a := by
  obtain ⟨hcallee, hgiven⟩ := List.append_subset.1 hmentions
  obtain ⟨hsure, hclear, htame⟩ := Action.of_definite hdefinite
  obtain ⟨hsureCallee, hsureArgs⟩ := List.forall_mem_cons.1 hsure
  have hargs : σ.Ready args := ⟨hgiven, hsureArgs⟩
  have hplain (htarget : callee ∈ (Action.call callee args).targets) :
      Follows σ (infer σ.env σ.here callee >>= fun callees => bindCallees σ.env σ.here callees ∅ args)
        (infer σ.env σ.there callee >>= fun callees => bindCallees σ.env σ.there callees ∅ args) σ.Assigns a := by
    refine (infer_follows hσ htext callee a ha hcallee hsureCallee).bind_with (infer_does callee hcallee)
      (fun t => bindCallees_does hgiven t ∅) fun t c t' ht ht' hc _ htt' => ?_
    refine bindCallees_follows hσ htext hc hargs htt' ?_ (Analysis.within_empty _) (tame_of_infer htame htarget ht')
    rintro rfl
    exact eq_all_of_clear hσ htext ha.toStage hcallee (hclear _ htarget) ht ht'
  obtain ⟨form, declared⟩ := callee
  cases form with
  | prop receiver property =>
    have hreceiver : receiver ∈ (Action.call ⟨.prop receiver property, declared⟩ args).targets := List.mem_cons_self
    have htarget : ⟨.prop receiver property, declared⟩ ∈
        (Action.call ⟨.prop receiver property, declared⟩ args).targets :=
      List.mem_cons_of_mem _ (List.mem_singleton_self _)
    have hexplicit (R C : ConcreteType) : Moves σ.Does (if property = PropertyName.call then
        bindExplicitCall σ.env σ.there R C args else bindCallees σ.env σ.there C R args) := by
      split
      · exact bindExplicitCall_does hgiven R C
      · exact bindCallees_does hgiven C R
    have hsureReceiver : ∀ q ∈ receiver.inferred, σ.env.sure σ.host σ.there q = true :=
      fun q hq => hsureCallee q (List.mem_cons_of_mem _ hq)
    refine (infer_follows hσ htext receiver a ha hcallee hsureReceiver).bind_with (infer_does receiver hcallee)
      (fun R => ?_) fun R c R' hR hR' hc _ hRR' => ?_
    · cases R with
      | all => exact escapeArguments_does hgiven
      | only m => exact (infer_does _ hcallee).bind (hexplicit (.only m))
    cases R' with
    | all =>
      rw [eq_all_of_clear (e := receiver) hσ htext ha.toStage hcallee (hclear _ hreceiver) hR hR']
      have hclearArgs := (tame_of_infer htame hreceiver hR').resolve_right fun h => h.1 rfl
      exact escapeArguments_follows hσ htext hc hargs hclearArgs
    | only m' =>
      cases R with
      | all => exact hRR'.elim
      | only m =>
        refine (infer_follows hσ htext _ c hc hcallee hsureCallee).bind_with (infer_does _ hcallee)
          (hexplicit (.only m')) fun C d C' hC hC' hd hcd hCC' => ?_
        have hall : C' = .all → C = .all := by
          rintro rfl
          exact eq_all_of_clear hσ htext hc.toStage hcallee (hclear _ htarget) hC hC'
        split
        · rename_i hcall
          subst hcall
          exact bindExplicitCall_follows hσ htext hd hargs (hRR'.grows hcd) hCC' hall
            (functions_nil_or_subset hσ ha (Action.plainCall_of_definite hdefinite) hR hR' hRR' hC)
            (tame_of_infer htame hreceiver hR') (tame_of_infer htame htarget hC')
        · exact bindCallees_follows hσ htext hd hargs hCC' hall (hRR'.grows hcd) (tame_of_infer htame htarget hC')
  | _ => exact hplain (List.mem_singleton_self _)

/-- The object that a constructor makes is allocated, and bound as the receiver. -/
theorem bindConstructor_follows {args : List Expr} (hargs : σ.Ready args) {f f' : FnRef}
    (hmatch : a.Matches σ.host (.function f) (.function f'))
    (htame : (∀ arg ∈ args, σ.env.clear σ.host σ.there arg = true) ∨ σ.Domestic f') :
    Follows σ (bindConstructor σ.env σ.here args f) (bindConstructor σ.env σ.there args f') σ.Assigns a := by
  obtain ⟨_, q, q', heq, hq, hq', hdecl⟩ := Analysis.matches_function hmatch
  cases heq
  obtain ⟨d, hd⟩ := ha.valid.functions q (List.mem_of_getElem? hq)
  obtain ⟨d', hd'⟩ := hσ.valid.functions q' (List.mem_of_getElem? hq')
  obtain rfl : d = d' := Option.some.inj (hd.decl.symm.trans (hdecl ▸ hd'.decl))
  have hrel := hd.object.rel hd'.object
  unfold bindConstructor
  refine follows_get ?_
  rw [hq, hq', Option.bind_some, Option.bind_some]
  generalize q.object = r at hrel
  generalize q'.object = r' at hrel
  cases hrel with
  | none => exact bindFunction_follows hσ htext ha hargs (Analysis.within_empty _) hmatch htame
  | some hobject =>
    refine (recordAllocation_follows hσ ha hobject).bind (recordAllocation_does _)
      (fun _ => bindFunction_does hargs.mentions _ f') fun _ c _ hc hac _ => ?_
    have hthis := Analysis.within_single (hobject.grows hac) (ConcreteType.mem_single.2 rfl)
    exact bindFunction_follows hσ htext hc hargs hthis (hmatch.grows hac) htame

/-- **An allocation.** -/
theorem bindConstruct_follows {callee : Expr} {args : List Expr}
    (hmentions : (Action.construct callee args).mentions ⊆ σ.mentions)
    (hdefinite : (Action.construct callee args).definite σ.env σ.host σ.there = true) :
    Follows σ (bindConstruct σ.env σ.here callee args) (bindConstruct σ.env σ.there callee args) σ.Assigns a := by
  obtain ⟨hcallee, hmentions⟩ := List.append_subset.1 hmentions
  obtain ⟨hsure, -, htame⟩ := Action.of_definite hdefinite
  obtain ⟨hsureCallee, hsureArgs⟩ := List.forall_mem_cons.1 hsure
  have hargs : σ.Ready args := ⟨hmentions, hsureArgs⟩
  refine (infer_follows hσ htext callee a ha hcallee hsureCallee).bind_with (infer_does callee hcallee) (fun t => ?_)
    fun t c t' ht ht' hc _ htt' => ?_
  · cases t with
    | all => exact moves_throw _
    | only m => exact gather_does fun f _ => bindConstructor_does hmentions f
  cases t' with
  | all =>
    intro zs d ws _ hy
    cases hy
  | only m' =>
    cases t with
    | all => exact htt'.elim
    | only m =>
      refine gather_follows lasting_lands (fun f _ => bindConstructor_does hmentions f) hc fun f hf => ?_
      obtain ⟨f', q, q', hf', hq, hq', hdecl⟩ := htt'.exists_function hf
      refine ⟨f', hf', fun d hd hcd => ?_⟩
      exact bindConstructor_follows hσ htext hd hargs (.grows (.of_function hq hq' hdecl) hcd)
        ((tame_of_infer htame (List.mem_singleton_self _) ht').imp_right fun h => h.2 f' hf')

end Actions

end AnalysisM

end TypeFlow
