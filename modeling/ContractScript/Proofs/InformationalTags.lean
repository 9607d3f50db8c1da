import Mathlib.Algebra.Order.BigOperators.Group.List
import Mathlib.Algebra.Order.Group.Nat
import ContractScript.Proofs.BindingOrder

/-!
# Tags that only inform

Some doc tags are for the reader and say nothing about what stands for a declaration. Reading the
tags of a declaration drops them, so functions, members and the contract of an interface are bound
as if they were not there. One decision looks at the tags before they are read: an interface is
bound as soon as a member has a tag of any kind. An interface that is bound for that reason alone
has no member that can be bound, and each of them is reported.
-/

namespace ContractScript

open List

variable {tag : DocTag} {tags : List DocTag} {markers : List Marker} {decl : InterfaceDecl}
  {item : Item} {p : Program}

/-! ## Reading tags -/

/-- The tags that do not only inform. -/
def bindingTags (tags : List DocTag) : List DocTag :=
  tags.filter (!·.isInformational)

theorem bindingTags_cons_of_informs (h : tag.isInformational = true) (rest : List DocTag) :
    bindingTags (tag :: rest) = bindingTags rest :=
  filter_cons_of_neg (by simp [h])

theorem bindingTags_cons_of_binds (h : tag.isInformational = false) (rest : List DocTag) :
    bindingTags (tag :: rest) = tag :: bindingTags rest :=
  filter_cons_of_pos (by simp [h])

theorem bindingTags_bindingTags (tags : List DocTag) :
    bindingTags (bindingTags tags) = bindingTags tags := by
  rw [bindingTags, bindingTags, filter_filter]
  simp

/-- `parseMarkers` reads one tag after the other. -/
theorem parseMarkers_cons (tag : DocTag) (rest : List DocTag) :
    parseMarkers (tag :: rest) = do
      let outcome ← parseMarker tag
      let markers ← parseMarkers rest
      return outcome.toList ++ markers := by
  unfold parseMarkers
  rw [mapM_cons]
  cases parseMarker tag with
  | error e => rfl
  | ok outcome =>
    cases rest.mapM parseMarker with
    | error e => rfl
    | ok found => cases outcome <;> rfl

/-- `parseMarkers` drops tags that only inform. -/
theorem parseMarkers_bindingTags (tags : List DocTag) :
    parseMarkers (bindingTags tags) = parseMarkers tags := by
  induction tags with
  | nil => rfl
  | cons tag rest ih =>
    cases hinforms : tag.isInformational with
    | true =>
      have hnone : parseMarker tag = .ok none := if_pos hinforms
      rw [bindingTags_cons_of_informs hinforms, ih, parseMarkers_cons, hnone]
      cases parseMarkers rest <;> rfl
    | false => rw [bindingTags_cons_of_binds hinforms, parseMarkers_cons, ih, parseMarkers_cons]

/-- `parseMarkers` reads what the `bindingTags` say, one after the other. -/
theorem says_of_parseMarkers (h : parseMarkers tags = .ok markers) :
    List.Forall₂ DocTag.Says (bindingTags tags) markers := by
  induction tags generalizing markers with
  | nil =>
    cases h
    exact .nil
  | cons tag rest ih =>
    rw [parseMarkers_cons] at h
    obtain ⟨outcome, houtcome, h⟩ := bind_eq_ok.mp h
    obtain ⟨found, hfound, h⟩ := bind_eq_ok.mp h
    cases h
    rcases says_of_parseMarker houtcome with ⟨hinforms, rfl⟩ | ⟨hbinds, m, rfl, hsaid⟩
    · rw [bindingTags_cons_of_informs hinforms]
      exact ih hfound
    · rw [bindingTags_cons_of_binds hbinds]
      exact .cons hsaid (ih hfound)

theorem map_tagName_of_says (h : List.Forall₂ DocTag.Says tags markers) :
    markers.map Marker.tagName = tags.map DocTag.name := by
  induction h with
  | nil => rfl
  | cons hsaid _ ih => rw [map_cons, map_cons, hsaid.tagName_eq, ih]

/-- No tag that a marker is read from only informs. -/
theorem isInformational_of_name (m : Marker) (h : tag.name = m.tagName) :
    tag.isInformational = false := by
  rw [DocTag.isInformational, h]
  cases m <;> (dsimp only [Marker.tagName]; decide)

/-- The first tag of the name of a marker is the first one that does not only inform. -/
theorem find?_bindingTags (tags : List DocTag) (m : Marker) :
    (bindingTags tags).find? (·.name == m.tagName) = tags.find? (·.name == m.tagName) := by
  rw [bindingTags, find?_filter]
  congr 1
  funext tag
  cases hname : tag.name == m.tagName with
  | false => simp
  | true => simp [isInformational_of_name m (beq_iff_eq.mp hname)]

theorem any_bindingTags (tags : List DocTag) (m : Marker) :
    (bindingTags tags).any (·.name == m.tagName) = tags.any (·.name == m.tagName) := by
  rw [Bool.eq_iff_iff, any_eq_true, any_eq_true, ← find?_isSome, ← find?_isSome,
    find?_bindingTags]

/-- An interface stands for a native contract if one of its tags has that name. -/
theorem isSome_nativeContract? (h : parseMarkers tags = .ok markers) :
    (Binder.nativeContract? markers).isSome = tags.any (·.name == "nativeContract") := by
  have hmarkers : (Binder.nativeContract? markers).isSome = true ↔
      "nativeContract" ∈ markers.map Marker.tagName := by
    rw [Binder.nativeContract?, getLast?_isSome, mem_map, ne_eq,
      filterMap_eq_nil_iff]
    push Not
    refine exists_congr fun m => and_congr_right fun _ => ?_
    cases m <;> simp [Marker.tagName]
  have htags := any_bindingTags tags (.nativeContract default)
  dsimp only [Marker.tagName] at htags
  rw [Bool.eq_iff_iff, hmarkers, map_tagName_of_says (says_of_parseMarkers h), ← htags,
    any_eq_true, mem_map]
  simp only [beq_iff_eq]

/-! ## Declarations without the tags that only inform -/

def FunctionDecl.undocumented (decl : FunctionDecl) : FunctionDecl :=
  { decl with tags := bindingTags decl.tags }

def InterfaceMember.undocumented (member : InterfaceMember) : InterfaceMember :=
  { member with tags := bindingTags member.tags }

def InterfaceDecl.undocumented (decl : InterfaceDecl) : InterfaceDecl :=
  { decl with
    members := decl.members.map InterfaceMember.undocumented
    tags := bindingTags decl.tags }

def Item.undocumented : Item → Item
  | .function decl => .function decl.undocumented
  | .interface decl => .interface decl.undocumented
  | item => item

/-- The `Program` without the tags that only inform, wherever they stand. -/
def Program.undocumented (p : Program) : Program :=
  { p with items := p.items.map Item.undocumented }

theorem InterfaceDecl.undocumented_undocumented (decl : InterfaceDecl) :
    decl.undocumented.undocumented = decl.undocumented := by
  simp [InterfaceDecl.undocumented, InterfaceMember.undocumented, bindingTags_bindingTags]

/-- There are no such tags in what is `undocumented`. -/
theorem Item.undocumented_undocumented (item : Item) :
    item.undocumented.undocumented = item.undocumented := by
  cases item with
  | function decl =>
    simp [Item.undocumented, FunctionDecl.undocumented, bindingTags_bindingTags]
  | interface decl => exact congrArg Item.interface decl.undocumented_undocumented
  | _ => rfl

theorem Program.undocumented_undocumented (p : Program) :
    p.undocumented.undocumented = p.undocumented := by
  simp [Program.undocumented, Item.undocumented_undocumented]

theorem Program.objects_undocumented (p : Program) : p.undocumented.objects = p.objects := by
  unfold Program.objects Program.undocumented
  rw [filterMap_map]
  congr 1
  funext item
  cases item <;> rfl

namespace Binder

theorem bindFunction_undocumented (b : Binder) (decl : FunctionDecl) :
    b.bindFunction decl.undocumented = b.bindFunction decl := by
  unfold bindFunction
  rw [FunctionDecl.undocumented, parseMarkers_bindingTags]

/-- `checkBody` looks at tags that bind only. -/
theorem checkBody_undocumented (b : Binder) (decl : FunctionDecl) :
    b.checkBody decl.undocumented = b.checkBody decl := by
  unfold checkBody
  dsimp only [FunctionDecl.undocumented]
  rw [parseMarkers_bindingTags]
  cases parseMarkers decl.tags with
  | error e => rfl
  | ok markers =>
    dsimp only
    cases markers.find? (!·.isSafe) with
    | none => rfl
    | some m =>
      dsimp only
      rw [find?_bindingTags]

theorem memberDefinition_undocumented (member : InterfaceMember) (contract : Option Hash160) :
    memberDefinition member.undocumented contract = memberDefinition member contract := by
  unfold memberDefinition
  rw [InterfaceMember.undocumented, parseMarkers_bindingTags]

theorem bindMember_undocumented (interface : String) (contract : Option Hash160)
    (bm : Binder × List Symbol) (member : InterfaceMember) :
    bindMember interface contract bm member.undocumented =
      bindMember interface contract bm member := by
  unfold bindMember
  rw [memberDefinition_undocumented]
  rfl

end Binder

/-! ## Interfaces that are bound -/

/-- Whether an interface is bound: it stands for a native contract, or some member of it has a
tag. -/
def InterfaceDecl.isBound (decl : InterfaceDecl) : Bool :=
  decl.tags.any (·.name == "nativeContract") || decl.members.any (!·.tags.isEmpty)

/-- Whether the tags of an interface itself can be read. -/
def InterfaceDecl.isReadable (decl : InterfaceDecl) : Bool :=
  (parseMarkers decl.tags).toBool

/-- An interface that is bound, and not refused for its own tags. -/
def Item.isBoundInterface : Item → Bool
  | .interface decl => decl.isReadable && decl.isBound
  | _ => false

/-- Which items are interfaces that are bound. -/
def Program.boundInterfaces (p : Program) : List Bool :=
  p.items.map Item.isBoundInterface

namespace InterfaceDecl

theorem parseMarkers_undocumented (decl : InterfaceDecl) :
    parseMarkers decl.undocumented.tags = parseMarkers decl.tags :=
  parseMarkers_bindingTags decl.tags

theorem isReadable_undocumented (decl : InterfaceDecl) :
    decl.undocumented.isReadable = decl.isReadable := by
  rw [isReadable, isReadable, parseMarkers_undocumented]

/-- An interface that is bound, but not without the tags that only inform: it stands for no
contract, and it has members, none of which has another tag. -/
theorem remarks_of_isBound (hbound : decl.isBound = true)
    (hplain : decl.undocumented.isBound = false) :
    decl.tags.any (·.name == "nativeContract") = false ∧
      (∀ member ∈ decl.members, bindingTags member.tags = []) ∧ decl.members ≠ [] := by
  obtain ⟨hcontract, hmembers⟩ := Bool.or_eq_false_iff.mp hplain
  have hcontract : decl.tags.any (·.name == "nativeContract") = false :=
    (any_bindingTags decl.tags (.nativeContract default)).symm.trans hcontract
  refine ⟨hcontract, ?_, ?_⟩
  · intro member hmember
    have hnone := any_eq_false.mp hmembers _ (mem_map_of_mem hmember)
    simpa [InterfaceMember.undocumented] using hnone
  · rintro hnil
    rw [isBound, hcontract, hnil] at hbound
    cases hbound

/-- With more tags an interface is still bound. -/
theorem isBound_of_undocumented (h : decl.undocumented.isBound = true) : decl.isBound = true := by
  rcases Bool.or_eq_true_iff.mp h with hcontract | hmembers
  · have hcontract : decl.tags.any (·.name == "nativeContract") = true :=
      (any_bindingTags decl.tags (.nativeContract default)).symm.trans hcontract
    exact Bool.or_eq_true_iff.mpr (.inl hcontract)
  · refine Bool.or_eq_true_iff.mpr (.inr ?_)
    obtain ⟨_, hmem, htags⟩ := any_eq_true.mp hmembers
    obtain ⟨member, hmember, rfl⟩ := mem_map.mp hmem
    refine any_eq_true.mpr ⟨member, hmember, ?_⟩
    cases hnil : member.tags with
    | nil => simp [InterfaceMember.undocumented, hnil, bindingTags] at htags
    | cons tag rest => rfl

end InterfaceDecl

namespace Binder

/-- Report the `Marker`s that an interface cannot have. -/
def reportMisplaced (b : Binder) (decl : InterfaceDecl) (markers : List Marker) : Binder :=
  (markers.filter fun m =>
    match m with
    | .nativeContract _ => false
    | _ => true).foldl (fun b m =>
      b.reportBinding (.unsupported ("@" ++ m.tagName)
        ("not applicable to interface " ++ quoted decl.id.name) decl.span)) b

/-- Bind an interface with its members. -/
def bindMembers (b : Binder) (decl : InterfaceDecl) (contract : Option Hash160) : Binder :=
  let (b, members) := decl.members.foldl (bindMember decl.id.name contract) (b, [])
  { b with registry := b.registry.bindInterface decl.id.name members }

/-- `bindInterface` when the tags of the interface can be read. -/
theorem bindInterface_of_ok (h : parseMarkers decl.tags = .ok markers) (b : Binder) :
    b.bindInterface decl =
      if decl.isBound then
        (b.reportMisplaced decl markers).bindMembers decl (nativeContract? markers)
      else b.reportMisplaced decl markers := by
  rw [InterfaceDecl.isBound, ← isSome_nativeContract? h]
  unfold bindInterface
  rw [h]
  rfl

theorem bindInterface_of_error {e : BindingError} (h : parseMarkers decl.tags = .error e)
    (b : Binder) : b.bindInterface decl = b.reportBinding e := by
  unfold bindInterface
  rw [h]

theorem bindMembers_undocumented (b : Binder) (decl : InterfaceDecl) (contract : Option Hash160) :
    b.bindMembers decl.undocumented contract = b.bindMembers decl contract := by
  unfold bindMembers
  dsimp only [InterfaceDecl.undocumented]
  rw [foldl_map]
  simp only [bindMember_undocumented]

/-- An interface is bound the same with other tags that only inform, if it `isBound` at all. -/
theorem bindInterface_congr {decl' : InterfaceDecl} (h : decl.undocumented = decl'.undocumented)
    (hbound : (decl.isReadable && decl.isBound) = (decl'.isReadable && decl'.isBound))
    (b : Binder) : b.bindInterface decl = b.bindInterface decl' := by
  have hparse : parseMarkers decl.tags = parseMarkers decl'.tags := by
    rw [← decl.parseMarkers_undocumented, h, decl'.parseMarkers_undocumented]
  cases hmarkers : parseMarkers decl.tags with
  | error e =>
    rw [bindInterface_of_error hmarkers, bindInterface_of_error (hparse ▸ hmarkers)]
  | ok markers =>
    have hsame : decl.isBound = decl'.isBound := by
      simpa [InterfaceDecl.isReadable, ← hparse, hmarkers, Except.toBool] using hbound
    have hreport : b.reportMisplaced decl markers = b.reportMisplaced decl' markers := by
      show b.reportMisplaced decl.undocumented markers =
        b.reportMisplaced decl'.undocumented markers
      rw [h]
    rw [bindInterface_of_ok hmarkers, bindInterface_of_ok (hparse ▸ hmarkers), hsame, hreport,
      ← bindMembers_undocumented _ decl, h, bindMembers_undocumented]

/-- So is every item. -/
theorem bindItem_congr {item' : Item} (h : item.undocumented = item'.undocumented)
    (hbound : item.isBoundInterface = item'.isBoundInterface) (b : Binder) :
    b.bindItem item = b.bindItem item' := by
  cases item with
  | function decl =>
    cases item' with
    | function decl' =>
      have hdecl : decl.undocumented = decl'.undocumented := Item.function.inj h
      have hbody : decl.undocumented.body = decl'.undocumented.body := by rw [hdecl]
      have hbody : decl.body = decl'.body := hbody
      rw [bindItem, bindItem, hbody, ← checkBody_undocumented, hdecl, checkBody_undocumented,
        ← bindFunction_undocumented, hdecl, bindFunction_undocumented]
    | _ => cases h
  | interface decl =>
    cases item' with
    | interface decl' => exact bindInterface_congr (Item.interface.inj h) hbound b
    | _ => cases h
  | _ =>
    cases item' <;> cases h
    rfl

theorem foldl_bindItem_congr {items items' : List Item}
    (h : items.map Item.undocumented = items'.map Item.undocumented)
    (hbound : items.map Item.isBoundInterface = items'.map Item.isBoundInterface) (b : Binder) :
    items.foldl bindItem b = items'.foldl bindItem b := by
  induction items generalizing items' b with
  | nil =>
    cases items' with
    | nil => rfl
    | cons item' rest' => cases h
  | cons item rest ih =>
    cases items' with
    | nil => cases h
    | cons item' rest' =>
      obtain ⟨hitem, hrest⟩ := List.cons.inj h
      obtain ⟨hbitem, hbrest⟩ := List.cons.inj hbound
      rw [foldl_cons, foldl_cons, bindItem_congr hitem hbitem]
      exact ih hrest hbrest _

end Binder

/-- `bindProgram` does not see tags that only inform if the same interfaces are bound. -/
theorem bindProgram_congr {q : Program} (h : p.undocumented = q.undocumented)
    (hbound : p.boundInterfaces = q.boundInterfaces) : bindProgram p = bindProgram q := by
  have hitems : p.items.foldl Binder.bindItem {} = q.items.foldl Binder.bindItem {} :=
    Binder.foldl_bindItem_congr (congrArg Program.items h) hbound {}
  have hobjects : p.objects = q.objects := by
    rw [← p.objects_undocumented, h, q.objects_undocumented]
  unfold bindProgram
  rw [hitems, hobjects]

/-! ## Interfaces that are bound for their remarks -/

/-- The report of a member of which nothing says how it is bound. -/
def InterfaceMember.unmarked (member : InterfaceMember) : Diagnostic :=
  .binding (.unsupported member.id.name "interface member needs a builtin marker" member.span)

/-- Whether a `Diagnostic` is about the tags of a declaration, and not about its name. -/
def Diagnostic.isBinding : Diagnostic → Bool
  | .binding _ => true
  | _ => false

namespace Binder

theorem memberDefinition_of_remarks {member : InterfaceMember} (h : bindingTags member.tags = []) :
    memberDefinition member none = .error
      (.unsupported member.id.name "interface member needs a builtin marker" member.span) := by
  unfold memberDefinition
  rw [← parseMarkers_bindingTags, h]
  rfl

/-- `bindMember` reports every member without another tag. -/
theorem foldl_bindMember_of_remarks {decls : List InterfaceMember}
    (h : ∀ member ∈ decls, bindingTags member.tags = []) (interface : String) (b : Binder)
    (members : List Symbol) :
    decls.foldl (bindMember interface none) (b, members) =
      ({ b with faults := b.faults ++ decls.map InterfaceMember.unmarked }, members) := by
  induction decls generalizing b with
  | nil => simp
  | cons decl rest ih =>
    obtain ⟨hdecl, hrest⟩ := forall_mem_cons.mp h
    have hstep : bindMember interface none (b, members) decl =
        (b.report decl.unmarked, members) := by
      unfold bindMember
      rw [memberDefinition_of_remarks hdecl]
      rfl
    rw [foldl_cons, hstep, ih hrest]
    simp [report]

/-- Every member of an interface that is bound for its remarks is reported. -/
theorem faults_bindInterface_of_remarks (hread : decl.isReadable = true)
    (hbound : decl.isBound = true) (hplain : decl.undocumented.isBound = false) (b : Binder) :
    (b.bindInterface decl).faults =
      (b.bindInterface decl.undocumented).faults ++ decl.members.map InterfaceMember.unmarked := by
  obtain ⟨hcontract, hremarks, -⟩ := InterfaceDecl.remarks_of_isBound hbound hplain
  cases hmarkers : parseMarkers decl.tags with
  | error e =>
    rw [InterfaceDecl.isReadable, hmarkers] at hread
    cases hread
  | ok markers =>
    have hnone : nativeContract? markers = none := by
      rw [← Option.not_isSome_iff_eq_none, isSome_nativeContract? hmarkers, hcontract]
      exact Bool.false_ne_true
    have hundocumented := decl.parseMarkers_undocumented.trans hmarkers
    rw [bindInterface_of_ok hmarkers, bindInterface_of_ok hundocumented, hbound, hplain, hnone]
    unfold bindMembers
    rw [if_pos rfl, foldl_bindMember_of_remarks hremarks]
    rfl

/-- The faults that are about tags. -/
def tagFaults (b : Binder) : List Diagnostic :=
  b.faults.filter Diagnostic.isBinding

theorem tagFaults_after (b c : Binder) : (b.after c).tagFaults = b.tagFaults ++ c.tagFaults :=
  filter_append ..

/-- A name that is taken is no fault about tags. -/
theorem tagFaults_define (b : Binder) (id : Ident) (d : Definition) :
    (b.define id d).tagFaults = b.tagFaults := by
  unfold define
  split
  · rfl
  · exact (filter_append ..).trans (append_nil _)

/-- Every item adds its own faults about tags, whatever came before. -/
theorem tagFaults_bindItem (b : Binder) (item : Item) :
    (b.bindItem item).tagFaults = b.tagFaults ++ item.bound.tagFaults := by
  cases binds_item item with
  | nothing _ _ _ hafter => rw [hafter, tagFaults_after]
  | @function decl d hitem hbody hbound =>
    subst hitem
    rw [bound_function_of_ok hbody hbound, bindItem, hbody, if_neg Bool.false_ne_true,
      bindFunction_of_ok hbound, tagFaults_define, tagFaults_after]
    rfl

theorem tagFaults_bindObject (b : Binder) (decl : ObjectDecl) :
    (b.bindObject decl).tagFaults = b.tagFaults := by
  unfold bindObject
  split
  · exact tagFaults_define ..
  · exact (filter_append ..).trans (append_nil _)

end Binder

/-- The faults of `bindProgram` that are about tags are those of its items. -/
theorem tagFaults_bindProgram (p : Program) :
    (bindProgram p).2.filter Diagnostic.isBinding = p.items.flatMap (·.bound.tagFaults) := by
  have hobjects : ∀ b : Binder, (p.objects.foldl Binder.bindObject b).tagFaults = b.tagFaults :=
    fun b => List.foldlRecOn (motive := fun c : Binder => c.tagFaults = b.tagFaults) p.objects
      Binder.bindObject rfl fun c hc decl _ => (Binder.tagFaults_bindObject c decl).trans hc
  have hitems : (p.items.foldl Binder.bindItem {}).tagFaults =
      ({} : Binder).tagFaults ++ p.items.flatMap (·.bound.tagFaults) :=
    foldl_adds (C := fun _ => True) (fun _ _ _ => trivial)
      (fun b item _ => Binder.tagFaults_bindItem b item) trivial
  exact (hobjects _).trans hitems

namespace Item

theorem isBoundInterface_of_undocumented (h : item.undocumented.isBoundInterface = true) :
    item.isBoundInterface = true := by
  cases item with
  | interface decl =>
    obtain ⟨hread, hbound⟩ := Bool.and_eq_true_iff.mp h
    exact Bool.and_eq_true_iff.mpr ⟨decl.isReadable_undocumented ▸ hread,
      InterfaceDecl.isBound_of_undocumented hbound⟩
  | _ => cases h

/-- An item that is an interface bound for its remarks. -/
theorem exists_of_isBoundInterface (h : item.isBoundInterface = true)
    (hplain : item.undocumented.isBoundInterface = false) :
    ∃ decl, item = .interface decl ∧ decl.isReadable = true ∧ decl.isBound = true ∧
      decl.undocumented.isBound = false := by
  cases item with
  | interface decl =>
    obtain ⟨hread, hbound⟩ := Bool.and_eq_true_iff.mp h
    refine ⟨decl, rfl, hread, hbound, ?_⟩
    have hplain : (decl.undocumented.isReadable && decl.undocumented.isBound) = false := hplain
    rwa [decl.isReadable_undocumented, hread, Bool.true_and] at hplain
  | _ => cases h

theorem bound_undocumented (h : item.isBoundInterface = item.undocumented.isBoundInterface) :
    item.bound = item.undocumented.bound :=
  Binder.bindItem_congr item.undocumented_undocumented.symm h {}

/-- What an interface that is bound for its remarks adds to the faults. -/
theorem tagFaults_of_remarks (h : item.isBoundInterface = true)
    (hplain : item.undocumented.isBoundInterface = false) :
    ∃ decl, item = .interface decl ∧ decl.members ≠ [] ∧
      item.bound.tagFaults =
        item.undocumented.bound.tagFaults ++ decl.members.map InterfaceMember.unmarked := by
  obtain ⟨decl, rfl, hread, hbound, hplain⟩ := exists_of_isBoundInterface h hplain
  refine ⟨decl, rfl, (InterfaceDecl.remarks_of_isBound hbound hplain).2.2, ?_⟩
  have hfaults := Binder.faults_bindInterface_of_remarks hread hbound hplain {}
  have hall : (decl.members.map InterfaceMember.unmarked).filter Diagnostic.isBinding =
      decl.members.map InterfaceMember.unmarked := by
    rw [filter_eq_self]
    rintro _ hmem
    obtain ⟨member, -, rfl⟩ := mem_map.mp hmem
    rfl
  have hfilter := congrArg (List.filter Diagnostic.isBinding) hfaults
  rw [filter_append, hall] at hfilter
  exact hfilter

/-- Without the tags that only inform there are no more faults about tags, and fewer if an
interface was bound for its remarks. -/
theorem length_tagFaults_undocumented (item : Item) :
    item.undocumented.bound.tagFaults.length ≤ item.bound.tagFaults.length ∧
      (item.isBoundInterface ≠ item.undocumented.isBoundInterface →
        item.undocumented.bound.tagFaults.length < item.bound.tagFaults.length) := by
  by_cases hsame : item.isBoundInterface = item.undocumented.isBoundInterface
  · rw [bound_undocumented hsame]
    exact ⟨le_rfl, fun hne => absurd hsame hne⟩
  · cases hplain : item.undocumented.isBoundInterface with
    | true => exact absurd ((isBoundInterface_of_undocumented hplain).trans hplain.symm) hsame
    | false =>
      have hbound : item.isBoundInterface = true :=
        Bool.not_eq_false _ ▸ fun hfalse => hsame (hfalse.trans hplain.symm)
      obtain ⟨decl, -, hmembers, hfaults⟩ := tagFaults_of_remarks hbound hplain
      have hpos := length_pos_iff.mpr hmembers
      rw [hfaults, length_append, length_map]
      exact ⟨by omega, fun _ => by omega⟩

end Item

/-! ## The program -/

/-- A program has more faults about tags than it has when it is `undocumented` if an interface was
bound for its remarks. -/
theorem length_tagFaults_lt (hitem : item ∈ p.items)
    (hne : item.isBoundInterface ≠ item.undocumented.isBoundInterface) :
    ((bindProgram p.undocumented).2.filter Diagnostic.isBinding).length <
      ((bindProgram p).2.filter Diagnostic.isBinding).length := by
  rw [tagFaults_bindProgram, tagFaults_bindProgram, Program.undocumented, flatMap_map,
    length_flatMap, length_flatMap]
  exact sum_lt_sum _ _ (fun item _ => item.length_tagFaults_undocumented.1)
    ⟨item, hitem, item.length_tagFaults_undocumented.2 hne⟩

/-- `bindProgram` binds two programs that differ only in tags that inform the same if the same
interfaces are bound (`boundInterfaces`). A program is bound as it is `undocumented` exactly if none
of its interfaces is bound for such tags alone; if one is, each of its members is reported. -/
theorem informational_tags_only_bind_interfaces (p q : Program)
    (h : p.undocumented = q.undocumented) :
    (p.boundInterfaces = q.boundInterfaces → bindProgram p = bindProgram q) ∧
      (bindProgram p = bindProgram p.undocumented ↔
        p.boundInterfaces = p.undocumented.boundInterfaces) ∧
      ∀ decl, .interface decl ∈ p.items → (Item.interface decl).isBoundInterface = true →
        (Item.interface decl).undocumented.isBoundInterface = false →
        ∀ member ∈ decl.members, member.unmarked ∈ (bindProgram p).2 := by
  refine ⟨bindProgram_congr h, ⟨fun heq => ?_, ?_⟩, ?_⟩
  · -- an interface whose binding differs would leave more faults behind
    have hsame : ∀ item ∈ p.items,
        item.isBoundInterface = item.undocumented.isBoundInterface := by
      intro item hitem
      by_contra hne
      have hlt := length_tagFaults_lt hitem hne
      rw [heq] at hlt
      exact lt_irrefl _ hlt
    rw [Program.boundInterfaces, Program.boundInterfaces, Program.undocumented, map_map]
    exact map_congr_left hsame
  · exact bindProgram_congr p.undocumented_undocumented.symm
  · intro decl hdecl hbound hplain member hmember
    obtain ⟨decl', hdecl', -, hfaults⟩ := Item.tagFaults_of_remarks hbound hplain
    cases hdecl'
    have hmem : member.unmarked ∈ (Item.interface decl).bound.tagFaults := by
      rw [hfaults]
      exact mem_append_right _ (mem_map_of_mem hmember)
    have hall : member.unmarked ∈ (bindProgram p).2.filter Diagnostic.isBinding := by
      rw [tagFaults_bindProgram]
      exact mem_flatMap.mpr ⟨_, hdecl, hmem⟩
    exact (mem_filter.mp hall).1

/-- A coordinate with the tags given. -/
def coordinate (tags : List DocTag) : InterfaceMember :=
  ⟨⟨"x", {}⟩, .property, [], .integer, tags, {}⟩

/-- An interface of the host, and a point whose coordinate has the tags given. -/
def pointProgram (tags : List DocTag) : Program where
  files := []
  items := [
    .interface ⟨⟨"Runtime", {}⟩, [⟨⟨"time", {}⟩, .property, [], .integer,
      [⟨"syscall", "System.Runtime.GetTime", {}⟩], {}⟩], [], {}⟩,
    .interface ⟨⟨"Point", {}⟩, [coordinate tags], [], {}⟩]

theorem informational_tags_only_bind_interfaces_point :
    bindProgram (pointProgram [⟨"returns", "the first coordinate", {}⟩]) =
        bindProgram (pointProgram [⟨"see", "Line", {}⟩, ⟨"remarks", "", {}⟩]) ∧
      bindProgram (pointProgram [⟨"returns", "the first coordinate", {}⟩]) ≠
        bindProgram (pointProgram [⟨"returns", "the first coordinate", {}⟩]).undocumented ∧
      (coordinate [⟨"returns", "the first coordinate", {}⟩]).unmarked ∈
        (bindProgram (pointProgram [⟨"returns", "the first coordinate", {}⟩])).2 := by
  obtain ⟨hcongr, hiff, hreported⟩ := informational_tags_only_bind_interfaces
    (pointProgram [⟨"returns", "the first coordinate", {}⟩])
    (pointProgram [⟨"see", "Line", {}⟩, ⟨"remarks", "", {}⟩]) rfl
  refine ⟨hcongr rfl, fun heq => ?_, ?_⟩
  · have hflags := hiff.mp heq
    revert hflags
    decide
  · exact hreported _ (.tail _ (.head _)) rfl rfl _ (.head _)

/-- A remark on a coordinate makes a point an interface of the host, with a fault. -/
theorem remark_binds_interface :
    (pointProgram [⟨"returns", "the first coordinate", {}⟩]).undocumented =
        (pointProgram []).undocumented ∧
      bindProgram (pointProgram [⟨"returns", "the first coordinate", {}⟩]) ≠
        bindProgram (pointProgram []) := by
  refine ⟨rfl, fun heq => ?_⟩
  have hbound := congrArg (fun found => (found.1.interface? "Point").isSome) heq
  revert hbound
  decide

end ContractScript
