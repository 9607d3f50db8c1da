import ContractScript.Proofs.BoundInterfaces
import ContractScript.Proofs.ProgramCode

/-!
# Notifications of events

An event is declared by a function without a body. Its declaration leaves two traces: an entry in
the manifest, and a symbol that calls are lowered from. Both have the same name and number of
parameters, so that what a call raises is what the manifest announces.
-/

namespace ContractScript

open List

variable {tag : DocTag} {decl : FunctionDecl} {d : Definition} {p : Program} {name : String}
  {count : Nat} {b : Binder} {callee : Expr} {args : List Expr} {options : CompileOptions}
  {contract : Contract}

open Lower

/-! ## What a declaration of an event says -/

namespace FunctionDecl

/-- The name that an event is raised under: the text of its tag without the quotes that may stand
around it, or the name of the function. -/
def notification (decl : FunctionDecl) : String :=
  let text := ((decl.tags.find? (·.name == "event")).map fun tag =>
    Text.trimBy (· == '\x22') tag.trimmed).getD []
  if text.isEmpty then decl.id.name else String.ofList text

/-- The `Event` that a function declares. -/
def event (decl : FunctionDecl) : Event :=
  ⟨decl.notification, slotsOf decl.params⟩

end FunctionDecl

theorem mem_definingTags {tags : List DocTag} (htag : tag ∈ tags) (hname : tag.name = "event") :
    tag ∈ definingTags tags := by
  refine mem_filter.mpr ⟨mem_filter.mpr ⟨htag, ?_⟩, ?_⟩
  · rw [isInformational_of_name (.event none) hname]
    rfl
  · rw [hname]
    decide

/-- If the only tag that defines a declaration is that of events, it is the first of that name. -/
theorem find?_event {tags : List DocTag} (htags : definingTags tags = [tag])
    (hname : tag.name = "event") : tags.find? (·.name == "event") = some tag := by
  have hmem : tag ∈ tags := by
    have hdefines : tag ∈ definingTags tags := htags ▸ mem_singleton_self tag
    exact (mem_filter.mp (mem_filter.mp hdefines).1).1
  cases hfind : tags.find? (·.name == "event") with
  | none =>
    have hnone := find?_eq_none.mp hfind tag hmem
    exact absurd (beq_iff_eq.mpr hname) hnone
  | some first =>
    have hfirst : first ∈ definingTags tags :=
      mem_definingTags (mem_of_find?_eq_some hfind)
        (beq_iff_eq.mp (find?_some (p := fun tag : DocTag => tag.name == "event") hfind))
    rw [htags] at hfirst
    rw [mem_singleton.mp hfirst]

/-- What has the tag of events becomes an event, under the `notification` that the tag gives it. -/
theorem eq_event_of_bound (hevent : decl.isEvent = true) (h : decl.bound = .ok d) :
    d = .event decl.notification decl.params.length := by
  obtain ⟨tag, htag, hname⟩ := any_eq_true.mp (Bool.and_eq_true_iff.mp hevent).2
  have hname : tag.name = "event" := beq_iff_eq.mp hname
  have hdefines := mem_definingTags htag hname
  obtain ⟨markers, hparse, hmakes⟩ := FunctionDecl.makes_of_bound h
  have honly : ∀ m, markers.filter (!·.isSafe) = [m] →
      definingTags decl.tags = [tag] ∧ tag.Says m := by
    intro m hmarkers
    obtain ⟨only, htags, hm⟩ := exists_definingTag hparse hmarkers
    rw [htags] at hdefines
    cases mem_singleton.mp hdefines
    exact ⟨htags, hm⟩
  have htagName : ∀ m, markers.filter (!·.isSafe) = [m] → m.tagName = "event" :=
    fun m hmarkers => (honly m hmarkers).2.tagName_eq.trans hname
  cases hmakes with
  | event hmarkers =>
    obtain ⟨htags, hm⟩ := honly _ hmarkers
    cases hm with
    | event _ hparsed =>
      unfold parseEvent at hparsed
      injection hparsed with hparsed
      rw [FunctionDecl.notification, find?_event htags hname, ← hparsed]
      dsimp only [Option.map_some, Option.getD_some]
      split <;> rfl
  | service hmarkers | operations hmarkers | methodToken hmarkers =>
    exact absurd (htagName _ hmarkers) (by simp [Marker.tagName])
  | native hmarkers =>
    rw [definingTags_eq_nil hparse hmarkers] at hdefines
    cases hdefines

/-! ## The events of a program -/

/-- Without a fault, a function without a body stands for something. -/
theorem bound_of_faults (hbody : decl.body.isSome = false)
    (h : (Item.function decl).bound.faults = []) : ∃ d, decl.bound = .ok d := by
  cases hbound : decl.bound with
  | ok d => exact ⟨d, rfl⟩
  | error e =>
    rw [Item.bound, Binder.bindItem, hbody, if_neg Bool.false_ne_true,
      Binder.bindFunction_of_error hbound] at h
    cases h

theorem Program.mem_eventDecls_iff :
    decl ∈ p.eventDecls ↔ .function decl ∈ p.items ∧ decl.isEvent = true := by
  rw [eventDecls, mem_filterMap]
  constructor
  · rintro ⟨item, hitem, hdecl⟩
    cases Item.eq_of_eventDecl? hdecl
    exact ⟨hitem, (Option.ite_none_right_eq_some.mp hdecl).1⟩
  · rintro ⟨hitem, hevent⟩
    exact ⟨_, hitem, by rw [Item.eventDecl?, if_pos hevent]⟩

/-- The events of `bindProgram` are those that its functions declare, in order. -/
theorem events_eq_map (h : (bindProgram p).2 = []) :
    (bindProgram p).1.events = p.eventDecls.map FunctionDecl.event := by
  have hitems := (Program.faults_bindProgram_iff.mp h).1
  rw [Program.events_bindProgram h, map_eq_flatMap]
  refine flatMap_congr fun decl hdecl => ?_
  obtain ⟨hitem, hevent⟩ := Program.mem_eventDecls_iff.mp hdecl
  have hbody : decl.body.isSome = false := by
    rw [← Option.not_isNone, (Bool.and_eq_true_iff.mp hevent).1]
    rfl
  obtain ⟨d, hd⟩ := bound_of_faults hbody (hitems _ hitem)
  rw [Binder.bound_function_of_ok hbody hd, eq_event_of_bound hevent hd]
  rfl

/-! ## Tags of events -/

/-- The tags of an `Item`, and of the members of an interface. -/
def Item.tags : Item → List DocTag
  | .function decl => decl.tags
  | .interface decl => decl.tags ++ decl.members.flatMap (·.tags)
  | _ => []

namespace Binder

/-- No member of an interface is an event. -/
theorem memberDefinition_ne_event {member : InterfaceMember} {contract : Option Hash160} :
    memberDefinition member contract ≠ .ok (.event name count) := by
  intro h
  unfold memberDefinition at h
  obtain ⟨markers, hmarkers, h⟩ := bind_eq_ok.mp h
  obtain ⟨found, hfound, h⟩ := bind_eq_ok.mp h
  split at h
  · cases h
  · next definition hnoevent =>
    cases h
    exact hnoevent _ _ rfl
  · cases h

theorem eq_nil_of_foldl_reportBinding {α : Type} {f : α → BindingError} {as : List α}
    (h : (as.foldl (fun b a => b.reportBinding (f a)) b).faults = []) : as = [] := by
  cases as with
  | nil => rfl
  | cons a rest =>
    rw [foldl_cons] at h
    have hfirst := clean_of_foldl (C := fun b : Binder => b.faults = [])
      (fun b a hb => (append_eq_nil_iff.mp hb).1) h
    cases (append_eq_nil_iff.mp hfirst).2

/-- `reportMisplaced` lets the tag of native contracts through only. -/
theorem tagName_of_reportMisplaced {decl : InterfaceDecl} {markers : List Marker}
    (h : (b.reportMisplaced decl markers).faults = []) :
    ∀ m ∈ markers, m.tagName = "nativeContract" := by
  intro m hm
  have hplaced := filter_eq_nil_iff.mp (eq_nil_of_foldl_reportBinding h) m hm
  cases m with
  | nativeContract hash => rfl
  | _ => exact absurd rfl hplaced

end Binder

/-- An interface that is bound without a fault has no tag of events, nor has a member of it. -/
theorem InterfaceDecl.no_event_tag {decl : InterfaceDecl}
    (h : (Item.interface decl).bound.faults = []) (htag : tag ∈ (Item.interface decl).tags) :
    tag.name ≠ "event" := by
  intro hname
  obtain ⟨⟨markers, hmarkers⟩, -, hclean⟩ := clean_of_faults h
  rcases mem_append.mp htag with htag | htag
  · -- a tag of the interface itself is reported
    have hreport : (({} : Binder).reportMisplaced decl markers).faults = [] := by
      have hstep : (Item.interface decl).bound = ({} : Binder).bindInterface decl := rfl
      rw [hstep, Binder.bindInterface_of_ok hmarkers] at h
      split at h
      · exact ((Binder.faults_foldl_bindMember_iff decl.members).mp h).1
      · exact h
    have hbinds : tag ∈ bindingTags decl.tags :=
      (mem_filter.mp (mem_definingTags htag hname)).1
    obtain ⟨m, hm, hsaid⟩ := exists_of_mem_left (says_of_parseMarkers hmarkers) hbinds
    have hnative := Binder.tagName_of_reportMisplaced hreport m hm
    rw [hsaid.tagName_eq, hname] at hnative
    exact absurd hnative (by decide)
  · -- a member with a tag makes the interface bound, so the member is
    obtain ⟨member, hmember, htag⟩ := mem_flatMap.mp htag
    have hbound : decl.isBound = true := by
      refine Bool.or_eq_true_iff.mpr (.inr (any_eq_true.mpr ⟨member, hmember, ?_⟩))
      rw [isEmpty_eq_false_iff.mpr (ne_nil_of_mem htag)]
      rfl
    obtain ⟨-, -, hmembers⟩ := exists_findSymbol_boundMembers h hbound
    obtain ⟨d, hdefines, -⟩ := hmembers member hmember
    have hmem := mem_definingTags htag hname
    have hconflict : ∀ {only : DocTag} {m : Marker}, definingTags member.tags = [only] →
        only.Says m → m.tagName = "event" := by
      intro only m htags hsaid
      rw [htags] at hmem
      rw [hsaid.tagName_eq, ← mem_singleton.mp hmem, hname]
    cases hdefines with
    | service htags hsaid => exact absurd (hconflict htags hsaid) (by simp [Marker.tagName])
    | operations htags hsaid => exact absurd (hconflict htags hsaid) (by simp [Marker.tagName])
    | methodToken htags hsaid => exact absurd (hconflict htags hsaid) (by simp [Marker.tagName])
    | native htags _ _ =>
      rw [htags] at hmem
      cases hmem

/-- Of the items that are bound without a fault, those with the tag of events, anywhere, are the
declarations of events. -/
theorem exists_tag_iff_eventDecl? {item : Item} (h : item.bound.faults = []) :
    (∃ tag ∈ item.tags, tag.name = "event") ↔ item.eventDecl?.isSome = true := by
  constructor
  · rintro ⟨tag, htag, hname⟩
    cases item with
    | function decl =>
      have hdefines : tag ∈ definingTags decl.tags := mem_definingTags htag hname
      cases hbody : decl.body with
      | none =>
        have hevent : decl.isEvent = true := by
          rw [FunctionDecl.isEvent, hbody]
          exact any_eq_true.mpr ⟨tag, htag, beq_iff_eq.mpr hname⟩
        rw [Item.eventDecl?, if_pos hevent]
        rfl
      | some body =>
        -- with a body, a tag that defines something is reported
        rw [Item.bound, Binder.bindItem, hbody, Option.isSome_some, if_pos rfl,
          Binder.checkBody] at h
        split at h
        · cases h
        · next markers hparse =>
          split at h
          · next hnone =>
            have hsaid := says_definingTags hparse
            have hfilter : markers.filter (!·.isSafe) = [] :=
              filter_eq_nil_iff.mpr (find?_eq_none.mp hnone)
            rw [hfilter, forall₂_nil_right_iff] at hsaid
            rw [hsaid] at hdefines
            cases hdefines
          · cases h
    | interface decl => exact absurd hname (InterfaceDecl.no_event_tag h htag)
    | _ => cases htag
  · intro hsome
    obtain ⟨decl, hdecl⟩ := Option.isSome_iff_exists.mp hsome
    cases Item.eq_of_eventDecl? hdecl
    have hevent := (Option.ite_none_right_eq_some.mp hdecl).1
    obtain ⟨tag, htag, hname⟩ := any_eq_true.mp (Bool.and_eq_true_iff.mp hevent).2
    exact ⟨tag, htag, beq_iff_eq.mp hname⟩

/-! ## Symbols of events -/

/-- The `Symbol` of a declaration of an event. -/
def FunctionDecl.eventSymbol (decl : FunctionDecl) : Symbol :=
  ⟨decl.id.name, builtinScope, decl.id.span, .event decl.notification decl.params.length⟩

/-- A symbol that stands for an event is that of its declaration: no member of an object is one. -/
theorem eventDecl_of_provided (h : (bindProgram p).2 = []) {symbol : Symbol}
    (hsymbol : symbol ∈ (bindProgram p).1.provided) (hdef : symbol.definition = .event name count) :
    ∃ decl ∈ p.eventDecls, symbol = decl.eventSymbol := by
  obtain ⟨owner, howner, hin⟩ := mem_flatMap.mp hsymbol
  rw [Program.symbols_bindProgram h] at howner
  rcases mem_append.mp howner with hitems | hobjects
  · obtain ⟨item, hitem, hmem⟩ := mem_flatMap.mp hitems
    cases Binder.binds_item item with
    | nothing hnone =>
      rw [hnone] at hmem
      cases hmem
    | @function decl d hfunction hbody hbound =>
      subst hfunction
      rw [Binder.bound_function_of_ok hbody hbound] at hmem
      cases mem_singleton.mp hmem
      cases d with
      | object members =>
        obtain ⟨_, -, hmakes⟩ := FunctionDecl.makes_of_bound hbound
        cases hmakes
      | event name' count' =>
        have hevent := isEvent_of_bound hbody hbound
        cases mem_singleton.mp hin
        refine ⟨decl, Program.mem_eventDecls_iff.mpr ⟨hitem, hevent⟩, ?_⟩
        rw [FunctionDecl.eventSymbol, ← eq_event_of_bound hevent hbound]
      | _ =>
        cases mem_singleton.mp hin
        cases hdef
  · -- a member of an interface is never an event
    obtain ⟨object, -, hmem⟩ := mem_flatMap.mp hobjects
    obtain ⟨members, hmembers, rfl⟩ := Option.map_eq_some_iff.mp (Option.mem_toList.mp hmem)
    have hoffers : (bindProgram p).1.interface? object.interface.name = some members := by
      rw [Registry.interface?, Program.interfaces_bindProgram]
      exact hmembers
    rw [Program.interface?_bindProgram h] at hoffers
    obtain ⟨decl, -, rfl⟩ := Option.map_eq_some_iff.mp hoffers
    have hin : symbol ∈ decl.boundMembers := hin
    obtain ⟨member, -, hmember⟩ := mem_flatMap.mp hin
    obtain ⟨d, hd, rfl⟩ := Binder.memberSymbol?_eq_some_iff.mp (Option.mem_toList.mp hmember)
    cases hdef
    exact absurd hd Binder.memberDefinition_ne_event

/-! ## Calls of events -/

/-- The `Operation`s that raise an event with so many values. -/
def notifyOps (name : String) (count : Nat) : List Operation :=
  [.pushInt count, .simple .pack, .pushData (Text.utf8 name), .service .runtimeNotify]

/-- Raise an event: the arguments from the last to the first, then the operations for it. -/
def notify (name : String) (args : List Expr) : Lower Unit := do
  args.reverse.forM lowerExpr
  emitAll (notifyOps name args.length)

section Calls

variable {s : LowerState} {symbol : Symbol}

theorem resolve_of_lookup (h : s.scope.lookup name = some symbol) (span : Span) :
    resolve name span s = .ok symbol s := by
  show ofSymbol (s.scope.resolve name span) s = _
  rw [Scope.resolve, h]
  rfl

/-- `memberOf?` finds what `member?` says. -/
theorem memberOf?_of_member? {object : Expr} {member : Ident}
    (h : s.scope.member? object member.name = some symbol) :
    memberOf? object member s = .ok (some symbol) s := by
  unfold Scope.member? at h
  unfold memberOf?
  split at h
  · next hobject =>
    split at h
    · next hlookup =>
      have hget : (get : Lower LowerState) s = .ok s s := rfl
      rw [hobject]
      dsimp only
      rw [bind_of_ok hget, hlookup]
      dsimp only
      rw [h]
      rfl
    · cases h
  · cases h

theorem resolveCallee_of_callee? (h : s.scope.callee? callee = some symbol) (span : Span) :
    resolveCallee callee span s = .ok symbol s := by
  unfold Scope.callee? at h
  unfold resolveCallee
  split at h
  · next hcallee =>
    rw [hcallee]
    exact resolve_of_lookup h _
  · next hcallee =>
    rw [hcallee]
    dsimp only
    rw [bind_of_ok (memberOf?_of_member? h)]
    rfl
  · cases h

/-- `lowerArgs` goes from the last argument to the first. -/
theorem lowerArgs_eq (args : List Expr) : lowerArgs args = args.reverse.forM lowerExpr := by
  induction args with
  | nil => rfl
  | cons arg rest ih =>
    rw [lowerArgs, ih, reverse_cons]
    simp

/-- `emitCall` of an event with as many arguments as it has parameters raises it, and leaves nothing
behind. -/
theorem emitCall_event {callee : Expr} (hcallee : s.scope.callee? callee = some symbol)
    {name : String} {args : List Expr} (hdef : symbol.definition = .event name args.length)
    (span : Span) :
    emitCall callee args.length span (lowerArgs args) s =
      (do notify name args; pure false : Lower Bool) s := by
  unfold emitCall
  rw [bind_of_ok (resolveCallee_of_callee? hcallee span), hdef]
  simp only [Definition.paramCount?, ne_eq, not_true_eq_false, if_false, emitInvocation,
    hdef, lowerArgs_eq, notify, notifyOps, bind_assoc]

variable (hcallee : s.scope.callee? callee = some symbol)
include hcallee

/-- `emitCall` of an event with another number of arguments is a fault. -/
theorem emitCall_event_of_ne {argCount : Nat} (hdef : symbol.definition = .event name count)
    (hne : argCount ≠ count) (span : Span) (args : Lower Unit) :
    emitCall callee argCount span args s =
      .error (.lowering (.argumentCount symbol.name count argCount span)) s := by
  unfold emitCall
  rw [bind_of_ok (resolveCallee_of_callee? hcallee span), hdef]
  dsimp only [Definition.paramCount?]
  rw [if_pos hne.symm]
  rfl

/-- A call of an event is lowered to `notify`, for its value or without. -/
theorem lowerExpr_call_event (hdef : symbol.definition = .event name args.length) (ty : Ty)
    (span : Span) : lowerExpr (.call callee args ty span) s = notify name args s ∧
      lowerDiscarded (.call callee args ty span) s = notify name args s := by
  have hcall := emitCall_event hcallee hdef span
  have hafter : ∀ next : Bool → Lower Unit, next false = pure () →
      (emitCall callee args.length span (lowerArgs args) >>= next) s = notify name args s := by
    intro next hnext
    cases hnotify : notify name args s with
    | ok u s' =>
      rw [bind_of_ok hnotify] at hcall
      rw [bind_of_ok hcall, hnext]
      rfl
    | error e s' =>
      rw [bind_of_error hnotify] at hcall
      rw [bind_of_error hcall]
  exact ⟨hafter _ rfl, hafter _ rfl⟩

theorem lowerExpr_call_event_of_ne (hdef : symbol.definition = .event name count)
    (hne : args.length ≠ count) (ty : Ty) (span : Span) : lowerExpr (.call callee args ty span) s =
        .error (.lowering (.argumentCount symbol.name count args.length span)) s ∧
      lowerDiscarded (.call callee args ty span) s =
        .error (.lowering (.argumentCount symbol.name count args.length span)) s := by
  have hcall := emitCall_event_of_ne hcallee hdef hne span (lowerArgs args)
  exact ⟨bind_of_error hcall, bind_of_error hcall⟩

end Calls

/-! ## What the manifest announces -/

/-- The entry of the manifest for a `Symbol` that stands for an event: it is that of the declaration
of the symbol, and has the name and the number of parameters that calls are lowered with. -/
def Contract.Announces (contract : Contract) (p : Program) (symbol : Symbol) (name : String)
    (count : Nat) : Prop :=
  ∃ (k : Nat) (decl : FunctionDecl) (event : Event), p.eventDecls[k]? = some decl ∧
    symbol.name = decl.id.name ∧ symbol.span = decl.id.span ∧
    contract.manifest.events[k]? = some event ∧ event = decl.event ∧
    event.name = name ∧ event.params.length = count

theorem events_of_compile (h : compile p options = .ok contract) :
    contract.manifest.events = (bindProgram p).1.events := by
  unfold compile at h
  obtain ⟨_, _, h⟩ := bind_eq_ok.mp h
  obtain ⟨_, _, h⟩ := bind_eq_ok.mp h
  obtain ⟨_, _, h⟩ := bind_eq_ok.mp h
  split at h
  · cases h
  · cases h
    rfl

/-- A call in a program that `compile` accepts names an event that the manifest `Announces`. -/
theorem announces_of_callee? (h : compile p options = .ok contract) {e : Expr} {symbol : Symbol}
    (hcallee : p.declared.scope.callee? e = some symbol)
    (hdef : symbol.definition = .event name count) : contract.Announces p symbol name count := by
  obtain ⟨script, hcompiled⟩ := compiled_of_compile h
  have hprovided : symbol ∈ (bindProgram p).1.provided := by
    refine provided_of_callee? hcallee (by rw [hdef]; rfl) fun id count returns hfunction => ?_
    cases hdef.symm.trans hfunction
  obtain ⟨decl, hdecl, rfl⟩ := eventDecl_of_provided hcompiled.bound hprovided hdef
  obtain ⟨k, hk⟩ := mem_iff_getElem?.mp hdecl
  cases hdef
  refine ⟨k, decl, decl.event, hk, rfl, rfl, ?_, rfl, rfl, length_map ..⟩
  rw [events_of_compile h, events_eq_map hcompiled.bound, getElem?_map, hk]
  rfl

/-- In a program that compiles, the events of the `Manifest` are, in order, those that its functions
declare, and nothing else has the tag of events. Wherever code is lowered in the scope of the
program or inside of it, a call that names an event names one that the manifest announces, and
becomes the arguments from the last to the first and the operations that raise it; with another
number of arguments it is a fault. So all code of the contract that stands for an event raises what
the manifest announces. -/
theorem notifications_match_events (p : Program) (options : CompileOptions) (contract : Contract)
    (h : compile p options = .ok contract) :
    contract.manifest.events = p.eventDecls.map FunctionDecl.event ∧
      (∀ item ∈ p.items,
        (∃ tag ∈ item.tags, tag.name = "event") ↔ item.eventDecl?.isSome = true) ∧
      (∀ (s : LowerState) callee symbol name count, p.declared.scope.Over s.scope →
        s.scope.callee? callee = some symbol → symbol.definition = .event name count →
        contract.Announces p symbol name count ∧
          ∀ args ty span,
            (args.length = count →
              lowerExpr (.call callee args ty span) s = notify name args s ∧
                lowerDiscarded (.call callee args ty span) s = notify name args s) ∧
            (args.length ≠ count →
              lowerExpr (.call callee args ty span) s =
                  .error (.lowering (.argumentCount symbol.name count args.length span)) s ∧
                lowerDiscarded (.call callee args ty span) s =
                  .error (.lowering (.argumentCount symbol.name count args.length span)) s)) ∧
      ∃ ps, RoutinesCode p p.lowered.routines ps p.lowered.tokens ∧
        ∀ symbol argCount isWanted ops, Piece.use symbol argCount isWanted ops ∈ ps →
          ∀ name count, symbol.definition = .event name count →
            argCount = count ∧ ops = notifyOps name count ∧
              contract.Announces p symbol name count := by
  obtain ⟨script, hcompiled⟩ := compiled_of_compile h
  obtain ⟨⟨ps, hall⟩, -⟩ := routinesCode_lowered hcompiled.lowered
  refine ⟨?_, ?_, ?_, ps, hall, ?_⟩
  · rw [events_of_compile h, events_eq_map hcompiled.bound]
  · intro item hitem
    exact exists_tag_iff_eventDecl? ((Program.faults_bindProgram_iff.mp hcompiled.bound).1 _ hitem)
  · intro s callee symbol name count hover hcallee hdef
    have hglobal := hover.callee? (inner_declare _ p) hcallee (by rw [hdef]; rfl)
    refine ⟨announces_of_callee? h hglobal hdef, fun args ty span => ⟨?_, ?_⟩⟩
    · rintro rfl
      exact lowerExpr_call_event hcallee hdef ty span
    · exact fun hne => lowerExpr_call_event_of_ne hcallee hdef hne ty span
  · intro symbol argCount isWanted ops hpiece name count hdef
    obtain ⟨⟨e, hcallee⟩, hcount, ctx, ctx', huses⟩ := hall.accounted _ hpiece
    have hannounced := announces_of_callee? h hcallee hdef
    rw [hdef] at hcount huses
    -- an event is no property, so it is called with its arguments
    have hargs : argCount = count := by
      rcases hcount with hcount | ⟨hproperty, -⟩
      · exact (Option.some.inj hcount).symm
      · cases hproperty
    subst hargs
    cases huses
    exact ⟨rfl, rfl, hannounced⟩

/-- A call of an event, with the parameters of the function that it stands in. -/
def transferCall : Expr :=
  .call (.ident ⟨"onTransfer", {}⟩ .any {})
    [.ident ⟨"to", {}⟩ .hash160 {}, .ident ⟨"amount", {}⟩ .integer {}] .void {}

/-- An event with a name of its own, and a function that raises it. -/
def transferring : Program where
  files := []
  items :=
    let params : List Param := [⟨⟨"to", {}⟩, .hash160, {}⟩, ⟨⟨"amount", {}⟩, .integer, {}⟩]
    [.function {
      id := ⟨"onTransfer", {}⟩, params := params, returnType := .void, body := none
      isExport := false, isSafe := false, tags := [⟨"event", " \"Transfer\"", {}⟩], span := {} },
    .function {
      id := ⟨"pay", {}⟩, params := params, returnType := .void
      body := some ⟨[.expr transferCall {}], {}⟩
      isExport := true, isSafe := false, tags := [], span := {} }]

theorem notifications_match_events_transferring : ∃ contract symbol,
    compile transferring {} = .ok contract ∧
      contract.manifest.events = [⟨"Transfer", [⟨"to", .hash160⟩, ⟨"amount", .integer⟩]⟩] ∧
      transferring.declared.scope.lookup "onTransfer" = some symbol ∧
      contract.Announces transferring symbol "Transfer" 2 ∧
      ∀ draft tokens, lowerDiscarded transferCall ⟨draft, transferring.declared.scope, tokens⟩ =
        notify "Transfer" [.ident ⟨"to", {}⟩ .hash160 {}, .ident ⟨"amount", {}⟩ .integer {}]
          ⟨draft, transferring.declared.scope, tokens⟩ := by
  obtain ⟨contract, hcontract⟩ : ∃ contract, compile transferring {} = .ok contract :=
    exists_compile rfl rfl rfl (by decide +kernel)
  obtain ⟨hevents, -, hcalls, -⟩ := notifications_match_events transferring {} contract hcontract
  have hlookup : transferring.declared.scope.lookup "onTransfer" =
      some ⟨"onTransfer", builtinScope, {}, .event "Transfer" 2⟩ := rfl
  have hover : transferring.declared.scope.Over transferring.declared.scope :=
    over_of_sameGlobals ⟨rfl, rfl, rfl⟩
  have hcall := fun draft tokens => hcalls ⟨draft, transferring.declared.scope, tokens⟩
    (.ident ⟨"onTransfer", {}⟩ .any {}) _ _ _ hover hlookup rfl
  refine ⟨contract, _, hcontract, hevents.trans rfl, hlookup, (hcall default .empty).1, ?_⟩
  exact fun draft tokens => (((hcall draft tokens).2 _ .void {}).1 rfl).2

end ContractScript
