import ContractScript.Proofs.Outcomes
import ContractScript.Symbol.Binding

/-!
# What a step of binding leaves behind

Binding goes through the declarations of a program one by one. Whatever a declaration says, it
reports a fault, adds a symbol, or adds to the events and interfaces. What holds after each of
those steps, `Binder.Lawful`, holds after binding as a whole.
-/

namespace ContractScript

variable {tag : DocTag} {m : Marker} {markers : List Marker} {sig : Signature} {d : Definition}
  {contract : Option Hash160}

/-! ## Tags -/

namespace DocTag

/-- Whether a tag only informs the reader. -/
def isInformational (tag : DocTag) : Bool :=
  informationalTags.contains tag.name

/-- The text of a tag without the blanks around it. -/
def trimmed (tag : DocTag) : List Char :=
  Text.trim tag.payload.toList

/-- What a tag that is not `isInformational` says. -/
inductive Says (tag : DocTag) : Marker → Prop where
  | service {s : Service} : tag.name = "syscall" →
    Service.ofName? (String.ofList tag.trimmed) = some s → Says tag (.service s)
  | contractHash {hash : Hash160} : tag.name = "nativeContract" →
    parseHash tag.trimmed = .ok hash → Says tag (.nativeContract hash)
  | contractName {c : NativeContract} : tag.name = "nativeContract" →
    NativeContract.ofName? (String.ofList tag.trimmed) = some c →
    Says tag (.nativeContract c.hash)
  | operations {ops : List Operation} : tag.name = "operation" →
    parseOperations tag.trimmed = .ok ops → Says tag (.operations ops)
  | methodToken {hash : Hash160} {method : Option String} : tag.name = "methodToken" →
    parseMethodToken tag.trimmed = .ok (.methodToken hash method) →
    Says tag (.methodToken hash method)
  | event {name : Option String} : tag.name = "event" → parseEvent tag.trimmed = .event name →
    Says tag (.event name)
  | safe : tag.name = "safe" → Says tag .safe

/-- `Marker.tagName` is the name of the tag that says it. -/
theorem Says.tagName_eq (h : tag.Says m) : m.tagName = tag.name := by
  cases h with
  | service hname _ => exact hname.symm
  | contractHash hname _ => exact hname.symm
  | contractName hname _ => exact hname.symm
  | operations hname _ => exact hname.symm
  | methodToken hname _ => exact hname.symm
  | event hname _ => exact hname.symm
  | safe hname => exact hname.symm

end DocTag

/-- What `parseOperation` gives. -/
theorem parseOperation_cases {part : List Char} {op : Operation}
    (h : parseOperation part = .ok op) :
    (∃ o, o.isSimple = true ∧ op = .simple o) ∨ (∃ ty, op = .convert ty) ∨
      (∃ ty, op = .isType ty) ∨ ∃ n, op = .pushInt n := by
  unfold parseOperation at h
  dsimp only at h
  split at h
  · cases h
  · split at h
    · cases h
    · obtain ⟨o, ho, rfl⟩ := map_eq_ok.mp h
      unfold parseSimple at ho
      split at ho
      · cases ho
      · split at ho
        · next hsimple =>
          cases ho
          exact .inl ⟨_, hsimple, rfl⟩
        · cases ho
  · split at h
    · obtain ⟨ty, -, rfl⟩ := map_eq_ok.mp h
      exact .inr (.inl ⟨ty, rfl⟩)
    · split at h
      · obtain ⟨ty, -, rfl⟩ := map_eq_ok.mp h
        exact .inr (.inr (.inl ⟨ty, rfl⟩))
      · split at h
        · obtain ⟨n, -, rfl⟩ := map_eq_ok.mp h
          exact .inr (.inr (.inr ⟨n, rfl⟩))
        · cases h
  · cases h

/-- `parseOperations` gives what `parseOperation` does, and at least one of it. -/
theorem forall_of_parseOperations {payload : List Char} {ops : List Operation}
    {P : Operation → Prop} (h : parseOperations payload = .ok ops)
    (hP : ∀ part op, parseOperation part = .ok op → P op) : ops ≠ [] ∧ ∀ op ∈ ops, P op := by
  unfold parseOperations at h
  obtain ⟨found, hfound, h⟩ := bind_eq_ok.mp h
  split at h
  · cases h
  · next hempty =>
    cases h
    refine ⟨fun hnil => hempty (List.isEmpty_iff.mpr hnil), fun op hop => ?_⟩
    obtain ⟨part, -, hpart⟩ := exists_of_mem_left (mapM_eq_ok_iff.mp hfound).flip hop
    exact hP part op hpart

/-- A tag that `parseMarker` accepts is `isInformational`, or it `Says` something. -/
theorem says_of_parseMarker {outcome : Option Marker} (h : parseMarker tag = .ok outcome) :
    (tag.isInformational = true ∧ outcome = none) ∨
      (tag.isInformational = false ∧ ∃ m, outcome = some m ∧ tag.Says m) := by
  unfold parseMarker at h
  dsimp only at h
  split at h
  · next hinforms =>
    cases h
    exact .inl ⟨hinforms, rfl⟩
  · next hinforms =>
    refine .inr ⟨Bool.not_eq_true _ ▸ hinforms, ?_⟩
    split at h
    · next hname =>
      split at h
      · cases h
      · split at h
        · next s hs =>
          cases h
          exact ⟨_, rfl, .service hname hs⟩
        · cases h
    · next hname =>
      split at h
      · split at h
        · next hmarker =>
          obtain ⟨hash, hhash, rfl⟩ := map_eq_ok.mp hmarker
          cases h
          exact ⟨_, rfl, .contractHash hname hhash⟩
        · cases h
      · split at h
        · cases h
        · split at h
          · next c hc =>
            cases h
            exact ⟨_, rfl, .contractName hname hc⟩
          · cases h
    · next hname =>
      split at h
      · next hmarker =>
        obtain ⟨ops, hops, rfl⟩ := map_eq_ok.mp hmarker
        cases h
        exact ⟨_, rfl, .operations hname hops⟩
      · cases h
    · next hname =>
      split at h
      · next hmarker =>
        cases h
        have hparsed := hmarker
        unfold parseMethodToken at hparsed
        obtain ⟨hash, _, hparsed⟩ := bind_eq_ok.mp hparsed
        split at hparsed
        · cases hparsed
        · cases hparsed
          exact ⟨_, rfl, .methodToken hname hmarker⟩
      · cases h
    · next hname =>
      cases h
      exact ⟨_, rfl, .event hname rfl⟩
    · next hname =>
      cases h
      exact ⟨_, rfl, .safe hname⟩
    · cases h

/-- Every marker of `parseMarkers` is what one of the tags says. -/
theorem exists_of_parseMarkers {tags : List DocTag} (h : parseMarkers tags = .ok markers)
    (hm : m ∈ markers) : ∃ tag ∈ tags, tag.Says m := by
  unfold parseMarkers at h
  obtain ⟨found, hfound, h⟩ := bind_eq_ok.mp h
  cases h
  obtain ⟨outcome, houtcome, hsome⟩ := List.mem_filterMap.mp hm
  cases hsome
  obtain ⟨tag, htag, hparse⟩ := exists_of_mem_left (mapM_eq_ok_iff.mp hfound).flip houtcome
  rcases says_of_parseMarker hparse with ⟨-, hnone⟩ | ⟨-, m', hm', hsaid⟩
  · cases hnone
  · cases hm'
    exact ⟨tag, htag, hsaid⟩

/-! ## Names of the host -/

/-- Whether a name has a value: that of a variable, or a constant. -/
def Definition.hasValue : Definition → Bool
  | .slot _ _ _ | .constant _ => true
  | .function _ _ _ | .host _ | .event _ _ | .method _ | .object _ => false

/-- What the `Marker`s of a declaration make of it. -/
inductive Makes (markers : List Marker) (sig : Signature) (contract : Option Hash160) :
    Definition → Prop where
  | service {s : Service} : markers.filter (!·.isSafe) = [.service s] →
    Makes markers sig contract (bindOperations [.service s] sig)
  | operations {ops : List Operation} : markers.filter (!·.isSafe) = [.operations ops] →
    Makes markers sig contract (bindOperations ops sig)
  | methodToken {hash : Hash160} {method : Option String} :
    markers.filter (!·.isSafe) = [.methodToken hash method] →
    Makes markers sig contract (.method
      ⟨hash, method.getD sig.name, sig.params.length, sig.returns, .all, sig.isProperty⟩)
  | event {name : Option String} : markers.filter (!·.isSafe) = [.event name] →
    Makes markers sig contract (.event (name.getD sig.name) sig.params.length)
  | native {hash : Hash160} : markers.filter (!·.isSafe) = [] → contract = some hash →
    Makes markers sig contract (.method
      ⟨hash, sig.name, sig.params.length, sig.returns, .all, sig.isProperty⟩)

theorem eq_method_of_bindMethod {hash : Hash160} {method : String}
    (h : some <$> bindMethod hash method sig = .ok (some d)) :
    d = .method ⟨hash, method, sig.params.length, sig.returns, .all, sig.isProperty⟩ := by
  unfold bindMethod at h
  split at h
  · cases h
    rfl
  · cases h

/-- `bindMarkers` gives what the markers make of a declaration. -/
theorem makes_of_bindMarkers (h : bindMarkers markers sig contract = .ok (some d)) :
    Makes markers sig contract d := by
  unfold bindMarkers at h
  split at h
  · cases h
  · next m hmarkers =>
    unfold Marker.bind at h
    split at h
    · cases h
      exact .service hmarkers
    · cases h
      exact .operations hmarkers
    · rw [eq_method_of_bindMethod h]
      exact .methodToken hmarkers
    · cases h
      exact .event hmarkers
    · cases h
    · cases h
  · next hmarkers =>
    rw [eq_method_of_bindMethod h]
    exact .native hmarkers rfl
  · cases h

/-- What the tags of a declaration make of it. -/
def Bound (d : Definition) : Prop :=
  ∃ tags markers sig contract,
    parseMarkers tags = .ok markers ∧ bindMarkers markers sig contract = .ok (some d)

/-- What a name of the host may stand for: a declaration, or an object with an interface that is
bound. -/
def Registry.Offers (r : Registry) (d : Definition) : Prop :=
  Bound d ∨ ∃ name members, r.interface? name = some members ∧ d = .object members

/-- No name of the host has a value. -/
theorem hasValue_of_offers {r : Registry} (h : r.Offers d) : d.hasValue = false := by
  rcases h with ⟨_, _, _, _, _, hbind⟩ | ⟨_, _, _, rfl⟩
  · cases makes_of_bindMarkers hbind <;> rfl
  · rfl

/-- `Binder.memberDefinition` gives what tags make of a member. -/
theorem bound_memberDefinition {member : InterfaceMember}
    (h : Binder.memberDefinition member contract = .ok d) : Bound d := by
  unfold Binder.memberDefinition at h
  obtain ⟨markers, hmarkers, h⟩ := bind_eq_ok.mp h
  obtain ⟨found, hfound, h⟩ := bind_eq_ok.mp h
  split at h
  · cases h
  · cases h
    exact ⟨_, markers, _, contract, hmarkers, hfound⟩
  · cases h

/-! ## Steps -/

namespace Binder

/-- What the steps that binding is built from must keep. -/
structure Lawful (P : Binder → Prop) : Prop where
  binding : ∀ {b} e, P b → P (b.report (.binding e))
  symbol : ∀ {b} e, P b → P (b.report (.symbol e))
  add : ∀ {b} symbol, b.registry.Offers symbol.definition → P b →
    P { b with registry := { b.registry with symbols := b.registry.symbols ++ [symbol] } }
  event : ∀ {b} event, P b → P { b with registry := b.registry.addEvent event }
  interface : ∀ {b} name members, (∀ member ∈ members, Bound member.definition) → P b →
    P { b with registry := b.registry.bindInterface name members }

namespace Lawful

variable {P : Binder → Prop} {b : Binder} (h : Lawful P)
include h

/-- `Binder.define` keeps it. -/
theorem define (hb : P b) (id : Ident) (hd : b.registry.Offers d) : P (b.define id d) := by
  unfold Binder.define Registry.define
  split
  · next hr =>
    split at hr
    · cases hr
    · cases hr
      exact h.add _ hd hb
  · exact h.symbol _ hb

/-- `Binder.bindFunction` keeps it. -/
theorem bindFunction (hb : P b) (decl : FunctionDecl) : P (b.bindFunction decl) := by
  unfold Binder.bindFunction
  split
  · exact h.binding _ hb
  · next markers hparse =>
    dsimp only
    split
    · exact h.binding _ hb
    · exact h.binding _ hb
    · next hmarkers =>
      -- an event is recorded before its name is defined
      refine h.define ?_ _ (.inl ⟨_, markers, _, none, hparse, hmarkers⟩)
      split
      · exact h.event _ hb
      · exact hb

theorem checkBody (hb : P b) (decl : FunctionDecl) : P (b.checkBody decl) := by
  unfold Binder.checkBody
  split
  · exact h.binding _ hb
  · split
    · exact hb
    · exact h.binding _ hb

/-- `Binder.bindMember` keeps it, and what it adds is `Bound`. -/
theorem bindMember {bm : Binder × List Symbol}
    (hb : P bm.1 ∧ ∀ member ∈ bm.2, Bound member.definition) (interface : String)
    (contract : Option Hash160) (member : InterfaceMember) :
    P (Binder.bindMember interface contract bm member).1 ∧
      ∀ symbol ∈ (Binder.bindMember interface contract bm member).2, Bound symbol.definition := by
  unfold Binder.bindMember
  dsimp only
  split
  · exact ⟨h.binding _ hb.1, hb.2⟩
  · next definition hdefinition =>
    split
    · exact ⟨h.symbol _ hb.1, hb.2⟩
    · refine ⟨hb.1, List.forall_mem_append.mpr ⟨hb.2, List.forall_mem_singleton.mpr ?_⟩⟩
      exact bound_memberDefinition hdefinition

/-- `Binder.bindInterface` keeps it. -/
theorem bindInterface (hb : P b) (decl : InterfaceDecl) : P (b.bindInterface decl) := by
  unfold Binder.bindInterface
  split
  · exact h.binding _ hb
  · next markers _ =>
    dsimp only
    generalize List.filter _ markers = misplaced
    have hmisplaced : P (misplaced.foldl (fun b m =>
        b.reportBinding (.unsupported ("@" ++ m.tagName)
          ("not applicable to interface " ++ quoted decl.id.name) decl.span)) b) :=
      List.foldlRecOn misplaced _ hb fun _ hb _ _ => h.binding _ hb
    split
    · generalize List.foldl _ b misplaced = b' at hmisplaced ⊢
      have hempty : P (b', ([] : List Symbol)).1 ∧
          ∀ member ∈ (b', ([] : List Symbol)).2, Bound member.definition :=
        ⟨hmisplaced, List.forall_mem_nil _⟩
      have hmembers := List.foldlRecOn (motive := fun bm : Binder × List Symbol =>
          P bm.1 ∧ ∀ member ∈ bm.2, Bound member.definition) decl.members
        (Binder.bindMember decl.id.name (nativeContract? markers)) hempty
        fun _ hb member _ => h.bindMember hb _ _ member
      exact h.interface _ _ hmembers.2 hmembers.1
    · exact hmisplaced

theorem bindObject (hb : P b) (decl : ObjectDecl) : P (b.bindObject decl) := by
  unfold Binder.bindObject
  split
  · next members hmembers => exact h.define hb _ (.inr ⟨_, members, hmembers, rfl⟩)
  · exact h.symbol _ hb

theorem bindItem (hb : P b) (item : Item) : P (b.bindItem item) := by
  unfold Binder.bindItem
  split
  · split
    · exact h.checkBody hb _
    · exact h.bindFunction hb _
  · exact h.bindInterface hb _
  all_goals exact hb

/-- What holds before the first declaration holds of all that `bindProgram` finds. -/
theorem bindProgram (hempty : P {}) (p : Program) :
    ∃ b, P b ∧ bindProgram p = (b.registry, b.faults) := by
  refine ⟨p.objects.foldl Binder.bindObject (p.items.foldl Binder.bindItem {}), ?_, rfl⟩
  refine List.foldlRecOn p.objects _ ?_ fun _ hb decl _ => h.bindObject hb decl
  exact List.foldlRecOn p.items _ hempty fun _ hb item _ => h.bindItem hb item

end Lawful

end Binder

end ContractScript
