import Mathlib.Data.List.Induction
import ContractScript.Proofs.InformationalTags

/-!
# What bound interfaces offer

An interface that is bound without a fault offers all of its members, each as its own tags say or as
the method of its name of the native contract. Interfaces are bound by name, and a later one takes
the place of an earlier one of its name: what a program and its global objects see of a name is
`Program.lastBound?`, the last interface that is bound under it.
-/

namespace ContractScript

open List

variable {markers : List Marker} {decl : InterfaceDecl} {hash : Hash160} {d : Definition}
  {member : InterfaceMember} {b : Binder}

/-! ## What tags make of a member -/

/-- The tags of a declaration that say what it stands for. -/
def definingTags (tags : List DocTag) : List DocTag :=
  (bindingTags tags).filter (·.name != "safe")

namespace InterfaceMember

/-- Whether a member is read like a property. -/
def isProperty (member : InterfaceMember) : Bool :=
  member.kind == .property

/-- Whether a member has a value. -/
def returns (member : InterfaceMember) : Bool :=
  member.isProperty || !member.ty.isVoid

/-- The method of a contract that a member stands for. -/
def method (member : InterfaceMember) (hash : Hash160) (name : String) : Definition :=
  .method ⟨hash, name, member.params.length, member.returns, .all, member.isProperty⟩

/-- The `Operation`s that a member stands for. -/
def host (member : InterfaceMember) (ops : List Operation) : Definition :=
  .host ⟨ops, member.params.length, member.returns, member.isProperty⟩

end InterfaceMember

namespace InterfaceDecl

/-- The last tag of an interface that names a native contract. -/
def contractTag? (decl : InterfaceDecl) : Option DocTag :=
  decl.tags.reverse.find? (·.name == "nativeContract")

/-- What a member of an interface stands for: what its own tag says, or without one the method of
its name of the contract that the interface names. -/
inductive Defines (decl : InterfaceDecl) (member : InterfaceMember) : Definition → Prop where
  | service {tag : DocTag} {s : Service} : definingTags member.tags = [tag] →
    tag.Says (.service s) → Defines decl member (member.host [.service s])
  | operations {tag : DocTag} {ops : List Operation} : definingTags member.tags = [tag] →
    tag.Says (.operations ops) → Defines decl member (member.host ops)
  | methodToken {tag : DocTag} {hash : Hash160} {method : Option String} :
    definingTags member.tags = [tag] → tag.Says (.methodToken hash method) →
    Defines decl member (member.method hash (method.getD member.id.name))
  | native {tag : DocTag} {hash : Hash160} : definingTags member.tags = [] →
    decl.contractTag? = some tag → tag.Says (.nativeContract hash) →
    Defines decl member (member.method hash member.id.name)

end InterfaceDecl

theorem name_ne_safe_iff {tag : DocTag} {m : Marker} (h : tag.Says m) :
    (tag.name != "safe") = true ↔ (!m.isSafe) = true := by
  rw [← h.tagName_eq]
  cases m <;> simp [Marker.tagName, Marker.isSafe]

/-- The markers that define a declaration are what its `definingTags` say. -/
theorem says_definingTags {tags : List DocTag} (h : parseMarkers tags = .ok markers) :
    List.Forall₂ DocTag.Says (definingTags tags) (markers.filter (!·.isSafe)) :=
  rel_filter (fun _ _ hsaid => name_ne_safe_iff hsaid) (says_of_parseMarkers h)

theorem exists_definingTag {tags : List DocTag} {m : Marker} (h : parseMarkers tags = .ok markers)
    (hm : markers.filter (!·.isSafe) = [m]) : ∃ tag, definingTags tags = [tag] ∧ tag.Says m := by
  have hsaid := says_definingTags h
  rw [hm] at hsaid
  obtain ⟨tag, _, hsays, hrest, htags⟩ := forall₂_cons_right_iff.mp hsaid
  cases hrest
  exact ⟨tag, htags, hsays⟩

theorem definingTags_eq_nil {tags : List DocTag} (h : parseMarkers tags = .ok markers)
    (hm : markers.filter (!·.isSafe) = []) : definingTags tags = [] :=
  forall₂_nil_right_iff.mp (hm ▸ says_definingTags h)

/-- `nativeContract?` is the contract that `contractTag?` names. -/
theorem says_contractTag? (h : parseMarkers decl.tags = .ok markers)
    (hhash : Binder.nativeContract? markers = some hash) :
    ∃ tag, decl.contractTag? = some tag ∧ tag.Says (.nativeContract hash) := by
  have hsaid := rel_reverse (says_of_parseMarkers h)
  have htags : (bindingTags decl.tags).reverse.find? (·.name == "nativeContract") =
      decl.contractTag? := by
    rw [bindingTags, ← filter_reverse]
    exact find?_bindingTags decl.tags.reverse (.nativeContract default)
  rw [Binder.nativeContract?, getLast?_filterMap] at hhash
  rw [← htags]
  generalize (bindingTags decl.tags).reverse = tags at hsaid
  generalize markers.reverse = found at hsaid hhash
  clear h htags
  -- the first marker from the end that names a contract, with the tag that says it
  induction hsaid with
  | nil => cases hhash
  | @cons tag m _ _ hfirst _ ih =>
    rw [findSome?_cons] at hhash
    rw [find?_cons, ← hfirst.tagName_eq]
    cases m with
    | nativeContract found =>
      cases hhash
      exact ⟨tag, rfl, hfirst⟩
    | _ => exact ih hhash

/-- `memberDefinition` gives what the tags make of a member. -/
theorem defines_of_memberDefinition (hdecl : parseMarkers decl.tags = .ok markers)
    (h : Binder.memberDefinition member (Binder.nativeContract? markers) = .ok d) :
    decl.Defines member d := by
  unfold Binder.memberDefinition at h
  obtain ⟨own, hown, h⟩ := bind_eq_ok.mp h
  obtain ⟨found, hfound, h⟩ := bind_eq_ok.mp h
  split at h
  · cases h
  · next definition hnoevent =>
    cases h
    cases makes_of_bindMarkers hfound with
    | service hmarkers =>
      obtain ⟨tag, htags, hm⟩ := exists_definingTag hown hmarkers
      exact .service htags hm
    | operations hmarkers =>
      obtain ⟨tag, htags, hm⟩ := exists_definingTag hown hmarkers
      exact .operations htags hm
    | methodToken hmarkers =>
      obtain ⟨tag, htags, hm⟩ := exists_definingTag hown hmarkers
      exact .methodToken htags hm
    | event _ => exact absurd rfl (hnoevent _ _)
    | native hmarkers hcontract =>
      obtain ⟨tag, htag, hnative⟩ := says_contractTag? hdecl hcontract
      exact .native (definingTags_eq_nil hown hmarkers) htag hnative
  · cases h

/-! ## The members of an interface -/

namespace Binder

/-- The `Symbol` of a member that can be bound. -/
def memberSymbol? (contract : Option Hash160) (member : InterfaceMember) : Option Symbol :=
  (memberDefinition member contract).toOption.map fun d =>
    ⟨member.id.name, builtinScope, member.span, d⟩

theorem memberSymbol?_eq_some_iff {contract : Option Hash160} {symbol : Symbol} :
    memberSymbol? contract member = some symbol ↔
      ∃ d, memberDefinition member contract = .ok d ∧
        symbol = ⟨member.id.name, builtinScope, member.span, d⟩ := by
  unfold memberSymbol?
  cases memberDefinition member contract with
  | error e => simp [Except.toOption]
  | ok d => simp [Except.toOption, eq_comm]

section Members

variable {interface : String} {contract : Option Hash160}

/-- `bindMember` adds the `memberSymbol?` under a new name, or a fault. -/
theorem bindMember_cases (bm : Binder × List Symbol) (member : InterfaceMember) :
    (∃ symbol, memberSymbol? contract member = some symbol ∧
      member.id.name ∉ bm.2.map Named.name ∧
      bindMember interface contract bm member = (bm.1, bm.2 ++ [symbol])) ∨
    (¬((memberSymbol? contract member).isSome ∧ member.id.name ∉ bm.2.map Named.name) ∧
      (bindMember interface contract bm member).1.faults ≠ []) := by
  have hreport : ∀ d, (bm.1.report d).faults ≠ [] := fun d =>
    append_ne_nil_of_right_ne_nil _ (cons_ne_nil _ _)
  unfold bindMember memberSymbol?
  cases memberDefinition member contract with
  | error e => exact .inr ⟨fun h => Bool.false_ne_true h.1, hreport _⟩
  | ok d =>
    dsimp only
    cases hfound : findSymbol bm.2 member.id.name with
    | none => exact .inl ⟨_, rfl, findSymbol_eq_none_iff.mp hfound, rfl⟩
    | some symbol =>
      refine .inr ⟨fun h => ?_, hreport _⟩
      rw [findSymbol_eq_none_iff.mpr h.2] at hfound
      cases hfound

/-- When `bindMember` has no fault to report. -/
theorem faults_bindMember_iff (bm : Binder × List Symbol) (member : InterfaceMember) :
    (bindMember interface contract bm member).1.faults = [] ↔ bm.1.faults = [] ∧
      (memberSymbol? contract member).isSome ∧
      ∀ name ∈ [member.id.name], name ∉ bm.2.map Named.name := by
  rw [forall_mem_singleton]
  rcases bindMember_cases bm member with ⟨symbol, hsymbol, hnew, heq⟩ | ⟨hnot, hfaults⟩
  · rw [heq, hsymbol]
    exact ⟨fun h => ⟨h, rfl, hnew⟩, fun h => h.1⟩
  · exact iff_of_false hfaults fun h => hnot h.2

/-- `bindMember` adds the `memberSymbol?`. -/
theorem members_bindMember (bm : Binder × List Symbol) (member : InterfaceMember)
    (h : (bindMember interface contract bm member).1.faults = []) :
    (bindMember interface contract bm member).2 =
      bm.2 ++ (memberSymbol? contract member).toList := by
  rcases bindMember_cases bm member with ⟨symbol, hsymbol, -, heq⟩ | ⟨-, hfaults⟩
  · rw [heq, hsymbol]
    rfl
  · exact absurd h hfaults

theorem map_name_memberSymbol? (h : (memberSymbol? contract member).isSome) :
    (memberSymbol? contract member).toList.map Named.name = [member.id.name] := by
  obtain ⟨symbol, hsymbol⟩ := Option.isSome_iff_exists.mp h
  obtain ⟨d, -, rfl⟩ := memberSymbol?_eq_some_iff.mp hsymbol
  rw [hsymbol]
  rfl

/-- Members are bound without a fault if each of them can be, and their names are distinct. -/
theorem faults_foldl_bindMember_iff (decls : List InterfaceMember) :
    (decls.foldl (bindMember interface contract) (b, [])).1.faults = [] ↔ b.faults = [] ∧
      (∀ member ∈ decls, (memberSymbol? contract member).isSome) ∧
      (decls.map (·.id.name)).Nodup := by
  have hfold := clean_foldl_iff (C := fun bm : Binder × List Symbol => bm.1.faults = [])
    (N := fun bm => bm.2.map Named.name) (@faults_bindMember_iff interface contract)
    (fun bm member h => by
      rw [members_bindMember bm member h, map_append,
        map_name_memberSymbol? ((faults_bindMember_iff bm member).mp h).2.1])
    (fun _ => nodup_singleton _) decls (b, []) nodup_nil
  rw [← map_eq_flatMap] at hfold
  exact hfold

/-- The members that are bound are their `memberSymbol?`s. -/
theorem members_foldl_bindMember {decls : List InterfaceMember}
    (h : (decls.foldl (bindMember interface contract) (b, [])).1.faults = []) :
    (decls.foldl (bindMember interface contract) (b, [])).2 =
      decls.flatMap fun member => (memberSymbol? contract member).toList :=
  foldl_adds (C := fun bm : Binder × List Symbol => bm.1.faults = [])
    (fun bm member h => ((faults_bindMember_iff bm member).mp h).1)
    (v := fun bm : Binder × List Symbol => bm.2) members_bindMember h

end Members

end Binder

namespace InterfaceDecl

/-- The native contract that an interface stands for. -/
def contract? (decl : InterfaceDecl) : Option Hash160 :=
  (parseMarkers decl.tags).toOption.bind Binder.nativeContract?

theorem contract?_of_ok (h : parseMarkers decl.tags = .ok markers) :
    decl.contract? = Binder.nativeContract? markers := by
  rw [contract?, h]
  rfl

/-- The members that an interface offers. -/
def boundMembers (decl : InterfaceDecl) : List Symbol :=
  decl.members.flatMap fun member => (Binder.memberSymbol? decl.contract? member).toList

/-- An interface without a fault can be read, and if it is bound, so can all of its members, which
have distinct names. -/
theorem clean_of_faults (h : (Item.interface decl).bound.faults = []) :
    (∃ markers, parseMarkers decl.tags = .ok markers) ∧
      (Item.interface decl).bound.registry.interfaces =
        (if decl.isBound then [(decl.id.name, decl.boundMembers)] else []) ∧
      (decl.isBound = true →
        (∀ member ∈ decl.members, (Binder.memberSymbol? decl.contract? member).isSome) ∧
          (decl.members.map (·.id.name)).Nodup) := by
  have hstep : (Item.interface decl).bound = ({} : Binder).bindInterface decl := rfl
  rw [hstep] at h ⊢
  cases hmarkers : parseMarkers decl.tags with
  | error e =>
    rw [Binder.bindInterface_of_error hmarkers] at h
    cases h
  | ok markers =>
    have hregistry : (({} : Binder).reportMisplaced decl markers).registry = {} :=
      Binder.registry_foldl_reportBinding _ _ _
    rw [Binder.bindInterface_of_ok hmarkers] at h ⊢
    refine ⟨⟨markers, rfl⟩, ?_⟩
    cases hbound : decl.isBound with
    | false =>
      rw [if_neg Bool.false_ne_true, if_neg Bool.false_ne_true, hregistry]
      exact ⟨rfl, fun h => absurd h Bool.false_ne_true⟩
    | true =>
      rw [hbound, if_pos rfl] at h
      rw [if_pos rfl, if_pos rfl, boundMembers, contract?_of_ok hmarkers]
      obtain ⟨-, hsymbols, hnodup⟩ := (Binder.faults_foldl_bindMember_iff decl.members).mp h
      refine ⟨?_, fun _ => ⟨hsymbols, hnodup⟩⟩
      unfold Binder.bindMembers
      dsimp only [Registry.bindInterface]
      rw [Binder.members_foldl_bindMember h, Binder.registry_foldl_bindMember, hregistry]

/-- `boundMembers` have the names of the members. -/
theorem map_name_boundMembers
    (h : ∀ member ∈ decl.members, (Binder.memberSymbol? decl.contract? member).isSome) :
    decl.boundMembers.map Named.name = decl.members.map (·.id.name) := by
  rw [boundMembers, map_flatMap, map_eq_flatMap]
  exact flatMap_congr fun member hmember => Binder.map_name_memberSymbol? (h member hmember)

/-- `findSymbol` finds every member of an interface that is bound without a fault, as its tags make
of it. -/
theorem exists_findSymbol_boundMembers (h : (Item.interface decl).bound.faults = [])
    (hbound : decl.isBound = true) :
    decl.boundMembers.map Named.name = decl.members.map (·.id.name) ∧
      (decl.members.map (·.id.name)).Nodup ∧
      ∀ member ∈ decl.members, ∃ d, decl.Defines member d ∧
        findSymbol decl.boundMembers member.id.name =
          some ⟨member.id.name, builtinScope, member.span, d⟩ := by
  obtain ⟨⟨markers, hmarkers⟩, -, hclean⟩ := clean_of_faults h
  obtain ⟨hsymbols, hnodup⟩ := hclean hbound
  have hnames := map_name_boundMembers hsymbols
  refine ⟨hnames, hnodup, fun member hmember => ?_⟩
  obtain ⟨symbol, hsymbol⟩ := Option.isSome_iff_exists.mp (hsymbols member hmember)
  obtain ⟨d, hd, rfl⟩ := Binder.memberSymbol?_eq_some_iff.mp hsymbol
  rw [contract?_of_ok hmarkers] at hd
  refine ⟨d, defines_of_memberDefinition hmarkers hd, ?_⟩
  refine (findSymbol_eq_some_iff (hnames ▸ hnodup)).mpr ⟨?_, rfl⟩
  refine mem_flatMap.mpr ⟨member, hmember, ?_⟩
  rw [hsymbol]
  exact mem_singleton_self _

end InterfaceDecl

/-! ## The interface that counts -/

/-- The interface that an `Item` is. -/
def Item.interface? : Item → Option InterfaceDecl
  | .interface decl => some decl
  | _ => none

/-- The interfaces of a `Program`, in order. -/
def Program.interfaces (p : Program) : List InterfaceDecl :=
  p.items.filterMap Item.interface?

theorem Program.mem_interfaces_iff {p : Program} :
    decl ∈ p.interfaces ↔ .interface decl ∈ p.items := by
  rw [interfaces, mem_filterMap]
  constructor
  · rintro ⟨item, hitem, hdecl⟩
    cases item with
    | interface decl' =>
      cases hdecl
      exact hitem
    | _ => cases hdecl
  · exact fun h => ⟨_, h, rfl⟩

/-- The interfaces of a `Program` that are bound, in order. -/
def Program.boundDecls (p : Program) : List InterfaceDecl :=
  p.interfaces.filter (·.isBound)

/-- The last interface that is bound under a name. -/
def Program.lastBound? (p : Program) (name : String) : Option InterfaceDecl :=
  (p.boundDecls.filter (·.id.name == name)).getLast?

/-- The interface that an item binds, if it has no fault. -/
theorem interfaces_bound_of_faults {item : Item} (h : item.bound.faults = []) :
    item.bound.registry.interfaces.reverse =
      (item.interface?.toList.filter (·.isBound)).map fun decl =>
        (decl.id.name, decl.boundMembers) := by
  cases item with
  | interface decl =>
    rw [(InterfaceDecl.clean_of_faults h).2.1]
    cases hbound : decl.isBound <;> simp [Item.interface?, hbound]
  | _ =>
    refine eq_nil_of_map_eq_nil (f := Prod.fst) (sublist_nil.mp ?_)
    exact interfaces_bound _

/-- What is bound last is found first. -/
theorem lookup_reverse {α : Type} (entries : List (String × α)) (name : String) :
    entries.reverse.lookup name = (entries.filter (·.1 == name)).getLast?.map Prod.snd := by
  induction entries using List.reverseRecOn with
  | nil => rfl
  | append_singleton entries entry ih =>
    obtain ⟨key, a⟩ := entry
    rw [reverse_concat, lookup_cons, filter_append, ih, BEq.comm]
    cases hkey : key == name <;> simp [hkey]

namespace Program

variable {p : Program}

/-- `boundItems` hold the `boundDecls`, the last one first. -/
theorem interfaces_boundItems_eq (h : (bindProgram p).2 = []) :
    p.boundItems.registry.interfaces =
      (p.boundDecls.map fun decl => (decl.id.name, decl.boundMembers)).reverse := by
  have hitems : ∀ item ∈ p.items, item.bound.faults = [] := (faults_bindProgram_iff.mp h).1
  rw [← reverse_reverse p.boundItems.registry.interfaces,
    interfaces_boundItems (faults_boundItems h), boundDecls, interfaces]
  congr 1
  generalize p.items = items at hitems
  induction items with
  | nil => rfl
  | cons item rest ih =>
    obtain ⟨hitem, hrest⟩ := forall_mem_cons.mp hitems
    rw [flatMap_cons, interfaces_bound_of_faults hitem, ih hrest]
    cases hinterface : item.interface? with
    | none =>
      rw [filterMap_cons_none hinterface]
      rfl
    | some decl =>
      rw [filterMap_cons_some hinterface, ← map_append, ← filter_append]
      rfl

/-- Global objects bind no interface. -/
theorem interfaces_bindProgram : (bindProgram p).1.interfaces = p.boundItems.registry.interfaces :=
  (Binder.registry_foldl_bindObject p.boundItems p.objects).1

/-- `Registry.interface?` offers what `lastBound?` does. -/
theorem interface?_bindProgram (h : (bindProgram p).2 = []) (name : String) :
    (bindProgram p).1.interface? name =
      (p.lastBound? name).map InterfaceDecl.boundMembers := by
  rw [Registry.interface?, interfaces_bindProgram, interfaces_boundItems_eq h, lookup_reverse,
    filter_map, getLast?_map, Option.map_map]
  rfl

/-- A global object has the members that the name of its interface offers. -/
theorem lookup_object (h : (bindProgram p).2 = []) {object : ObjectDecl}
    (hobject : object ∈ p.objects) {members : List Symbol}
    (hmembers : (bindProgram p).1.interface? object.interface.name = some members) :
    (bindProgram p).1.lookup object.id.name =
      some ⟨object.id.name, builtinScope, object.id.span, .object members⟩ := by
  refine (findSymbol_eq_some_iff (nodup_bindProgram h)).mpr ⟨?_, rfl⟩
  rw [Registry.interface?, interfaces_bindProgram] at hmembers
  rw [symbols_bindProgram h]
  refine mem_append_right _ (mem_flatMap.mpr ⟨object, hobject, ?_⟩)
  rw [Binder.objectSymbol?, hmembers]
  exact mem_singleton_self _

/-- `lastBound?` finds an interface under the name of any that is bound. -/
theorem exists_lastBound? (hdecl : decl ∈ p.boundDecls) :
    ∃ last, p.lastBound? decl.id.name = some last ∧ last ∈ p.boundDecls ∧
      last.id.name = decl.id.name := by
  have hmem : decl ∈ p.boundDecls.filter (·.id.name == decl.id.name) :=
    mem_filter.mpr ⟨hdecl, BEq.rfl⟩
  obtain ⟨last, hlast⟩ := Option.isSome_iff_exists.mp
    (getLast?_isSome.mpr (ne_nil_of_mem hmem))
  obtain ⟨hbound, hname⟩ := mem_filter.mp (mem_of_getLast? hlast)
  exact ⟨last, hlast, hbound, beq_iff_eq.mp hname⟩

end Program

/-- In a program that `bindProgram` accepts, the name of a bound interface offers the members of
`lastBound?`: all of them, each as its tags make of it, and to every global object of that name. If
the names of bound interfaces are distinct, that is the interface itself. -/
theorem last_bound_interface_counts (p : Program) (h : (bindProgram p).2 = [])
    (decl : InterfaceDecl) (hdecl : .interface decl ∈ p.items) (hbound : decl.isBound = true) :
    ∃ last members, p.lastBound? decl.id.name = some last ∧
      ((p.boundDecls.map (·.id.name)).Nodup → last = decl) ∧
      (bindProgram p).1.interface? decl.id.name = some members ∧
      members.map Named.name = last.members.map (·.id.name) ∧
      (members.map Named.name).Nodup ∧
      (∀ member ∈ last.members, ∃ d, last.Defines member d ∧
        findSymbol members member.id.name =
          some ⟨member.id.name, builtinScope, member.span, d⟩) ∧
      ∀ object ∈ p.objects, object.interface.name = decl.id.name →
        (bindProgram p).1.lookup object.id.name =
          some ⟨object.id.name, builtinScope, object.id.span, .object members⟩ := by
  have hmem : decl ∈ p.boundDecls :=
    mem_filter.mpr ⟨Program.mem_interfaces_iff.mpr hdecl, hbound⟩
  obtain ⟨last, hlast, hlastmem, hname⟩ := Program.exists_lastBound? hmem
  obtain ⟨hlastitem, hlastbound⟩ := mem_filter.mp hlastmem
  have hfaults := (Program.faults_bindProgram_iff.mp h).1 _
    (Program.mem_interfaces_iff.mp hlastitem)
  obtain ⟨hnames, hnodup, hmembers⟩ :=
    InterfaceDecl.exists_findSymbol_boundMembers hfaults hlastbound
  have hoffers : (bindProgram p).1.interface? decl.id.name = some last.boundMembers := by
    rw [Program.interface?_bindProgram h, hlast]
    rfl
  refine ⟨last, last.boundMembers, hlast, ?_, hoffers, hnames, hnames ▸ hnodup, hmembers, ?_⟩
  · exact fun hdistinct => inj_on_of_nodup_map hdistinct hlastmem hmem hname
  · intro object hobject hinterface
    exact Program.lookup_object h hobject (hinterface ▸ hoffers)

/-- An interface of the host with one property. -/
def runtimePart (name service : String) : InterfaceDecl :=
  ⟨⟨"Runtime", {}⟩, [⟨⟨name, {}⟩, .property, [], .integer, [⟨"syscall", service, {}⟩], {}⟩], [], {}⟩

/-- An interface in two parts, and an object that has it. -/
def runtimeInParts : Program where
  files := []
  items := [
    .interface (runtimePart "time" "System.Runtime.GetTime"),
    .interface (runtimePart "trigger" "System.Runtime.GetTrigger"),
    .object ⟨⟨"runtime", {}⟩, ⟨"Runtime", {}⟩, {}⟩]

theorem bindProgram_runtimeInParts : (bindProgram runtimeInParts).2 = [] := by
  rfl

theorem last_bound_interface_counts_runtime : ∃ members,
    (bindProgram runtimeInParts).1.interface? "Runtime" = some members ∧
      members.map Named.name = ["trigger"] ∧
      (bindProgram runtimeInParts).1.lookup "runtime" =
        some ⟨"runtime", builtinScope, {}, .object members⟩ := by
  obtain ⟨last, members, hlast, -, hoffers, hnames, -, -, hobjects⟩ :=
    last_bound_interface_counts runtimeInParts bindProgram_runtimeInParts
      (runtimePart "time" "System.Runtime.GetTime") (.head _) rfl
  have hsecond : runtimeInParts.lastBound? "Runtime" =
      some (runtimePart "trigger" "System.Runtime.GetTrigger") := rfl
  cases hsecond.symm.trans hlast
  exact ⟨members, hoffers, hnames, hobjects _ (.head _) rfl⟩

/-- The first part is bound without a fault, and what it declares is not offered. -/
theorem earlier_interface_is_lost :
    (bindProgram runtimeInParts).2 = [] ∧
      .interface (runtimePart "time" "System.Runtime.GetTime") ∈ runtimeInParts.items ∧
      (runtimePart "time" "System.Runtime.GetTime").isBound = true ∧
      ((bindProgram runtimeInParts).1.interface? "Runtime").isSome = true ∧
      ((bindProgram runtimeInParts).1.interface? "Runtime").bind (findSymbol · "time") = none :=
  ⟨bindProgram_runtimeInParts, .head _, rfl, rfl, rfl⟩

end ContractScript
