import Mathlib.Data.List.Perm.Lattice
import ContractScript.Proofs.BinderSteps

/-!
# Binding in any order

A declaration for the host adds the same to what was bound before it (`Item.bound`), whatever that
is, as long as its name is new. So declarations that bind without faults in one order do so in every
order, and the names of the host stand for the same.
-/

namespace ContractScript

open List

variable {symbols : List Symbol} {name : String} {b : Binder} {id : Ident} {decl : FunctionDecl}
  {d : Definition} {item : Item} {count : Nat}

/-! ## Tables of distinct names -/

/-- `findSymbol` among distinct names. -/
theorem findSymbol_eq_some_iff (h : (symbols.map Named.name).Nodup) {symbol : Symbol} :
    findSymbol symbols name = some symbol ↔ symbol ∈ symbols ∧ symbol.name = name := by
  induction symbols with
  | nil => simp [findSymbol]
  | cons first rest ih =>
    rw [map_cons, nodup_cons] at h
    rw [findSymbol, find?_cons]
    cases hname : first.name == name with
    | true =>
      have heq : first.name = name := beq_iff_eq.mp hname
      constructor
      · rintro ⟨⟩
        exact ⟨mem_cons_self, heq⟩
      · rintro ⟨hmem, hsymbol⟩
        rcases mem_cons.mp hmem with rfl | hmem
        · rfl
        · -- a later symbol of the name would be a second one
          have hlater := mem_map_of_mem (f := Named.name) hmem
          rw [hsymbol, ← heq] at hlater
          exact absurd hlater h.1
    | false =>
      have hne : first.name ≠ name := beq_eq_false_iff_ne.mp hname
      have hrest := ih h.2
      rw [findSymbol] at hrest
      rw [hrest, mem_cons]
      constructor
      · exact fun ⟨hmem, hsymbol⟩ => ⟨.inr hmem, hsymbol⟩
      · rintro ⟨rfl | hmem, hsymbol⟩
        · exact absurd hsymbol hne
        · exact ⟨hmem, hsymbol⟩

/-- `findSymbol` in a table of distinct names in another order. -/
theorem findSymbol_perm {symbols' : List Symbol} (h : symbols.Perm symbols')
    (hnodup : (symbols.map Named.name).Nodup) (name : String) :
    findSymbol symbols name = findSymbol symbols' name := by
  have hnodup' : (symbols'.map Named.name).Nodup := (h.map Named.name).nodup_iff.mp hnodup
  ext symbol
  rw [findSymbol_eq_some_iff hnodup, findSymbol_eq_some_iff hnodup', h.mem_iff]

theorem findSymbol_eq_none_iff :
    findSymbol symbols name = none ↔ name ∉ symbols.map Named.name := by
  rw [findSymbol, find?_eq_none, mem_map]
  simp only [beq_iff_eq]
  exact ⟨fun h ⟨symbol, hmem, heq⟩ => h symbol hmem heq,
    fun h symbol hmem heq => h ⟨symbol, hmem, heq⟩⟩

theorem lookup_eq_some_iff {α : Type} {entries : List (String × α)}
    (h : (entries.map Prod.fst).Nodup) {a : α} :
    entries.lookup name = some a ↔ (name, a) ∈ entries := by
  induction entries with
  | nil => simp
  | cons first rest ih =>
    obtain ⟨key, b⟩ := first
    rw [map_cons, nodup_cons] at h
    rw [lookup_cons, mem_cons]
    cases hname : name == key with
    | true =>
      cases beq_iff_eq.mp hname
      constructor
      · rintro ⟨⟩
        exact .inl rfl
      · rintro (heq | hmem)
        · rw [(Prod.mk.inj heq).2]
        · exact absurd (mem_map_of_mem (f := Prod.fst) hmem) h.1
    | false =>
      have hne : name ≠ key := beq_eq_false_iff_ne.mp hname
      rw [ih h.2]
      exact ⟨.inr, fun hmem => hmem.resolve_left fun heq => hne (Prod.mk.inj heq).1⟩

/-- `List.lookup` in a table of distinct names in another order. -/
theorem lookup_perm {α : Type} {entries entries' : List (String × α)} (h : entries.Perm entries')
    (hnodup : (entries.map Prod.fst).Nodup) (name : String) :
    entries.lookup name = entries'.lookup name := by
  have hnodup' : (entries'.map Prod.fst).Nodup := (h.map Prod.fst).nodup_iff.mp hnodup
  ext a
  rw [lookup_eq_some_iff hnodup, lookup_eq_some_iff hnodup', h.mem_iff]

/-! ## Names that are defined one after the other -/

section Folds

-- `C`: a state is clean; `N`: its names; `F`: an element fits; `A`: the names that it adds
variable {σ α β : Type} {step : σ → α → σ} {C : σ → Prop} {N : σ → List String} {F : α → Prop}
  {A : α → List String}

theorem clean_of_foldl (hback : ∀ s a, C (step s a) → C s) : ∀ {as : List α} {s : σ},
    C (as.foldl step s) → C s
  | [], _, h => h
  | _ :: _, _, h => hback _ _ (clean_of_foldl hback h)

/-- What every step of a clean run adds is there at its end. -/
theorem foldl_adds (hback : ∀ s a, C (step s a) → C s) {v : σ → List β} {g : α → List β}
    (hvalue : ∀ s a, C (step s a) → v (step s a) = v s ++ g a) : ∀ {as : List α} {s : σ},
    C (as.foldl step s) → v (as.foldl step s) = v s ++ as.flatMap g
  | [], _, _ => (append_nil _).symm
  | a :: rest, s, h => by
    rw [foldl_cons] at h ⊢
    rw [foldl_adds hback hvalue h, hvalue s a (clean_of_foldl hback h), flatMap_cons,
      append_assoc]

/-- If a step is clean exactly for an element that fits and whose names are new, then a run is
clean exactly if all elements fit and all names are distinct. -/
theorem clean_foldl_iff
    (hclean : ∀ s a, C (step s a) ↔ C s ∧ F a ∧ ∀ name ∈ A a, name ∉ N s)
    (hnames : ∀ s a, C (step s a) → N (step s a) = N s ++ A a)
    (hadds : ∀ a, (A a).Nodup) : ∀ (as : List α) (s : σ), (N s).Nodup →
    (C (as.foldl step s) ↔ C s ∧ (∀ a ∈ as, F a) ∧ (N s ++ as.flatMap A).Nodup)
  | [], s, hs => by simpa using fun _ => hs
  | a :: rest, s, hs => by
    rw [foldl_cons, flatMap_cons, ← append_assoc, forall_mem_cons]
    by_cases hfirst : C (step s a)
    · have hnext := hnames s a hfirst
      obtain ⟨hclean', hfits, hnew⟩ := (hclean s a).mp hfirst
      have hnodup : (N (step s a)).Nodup := by
        rw [hnext, nodup_append]
        exact ⟨hs, hadds a, fun x hx y hy heq => hnew y hy (heq ▸ hx)⟩
      rw [clean_foldl_iff hclean hnames hadds rest (step s a) hnodup, hnext]
      exact ⟨fun ⟨_, hrest, hall⟩ => ⟨hclean', ⟨hfits, hrest⟩, hall⟩,
        fun ⟨_, ⟨_, hrest⟩, hall⟩ => ⟨hfirst, hrest, hall⟩⟩
    · -- neither side holds: the first step is a fault
      refine iff_of_false (fun h => hfirst ?_) fun ⟨hs', ⟨hfits, _⟩, hall⟩ => hfirst ?_
      · exact clean_of_foldl (fun s a h => ((hclean s a).mp h).1) h
      · refine (hclean s a).mpr ⟨hs', hfits, fun name hname hold => ?_⟩
        have hboth := (nodup_append.mp (nodup_append.mp hall).1).2.2
        exact hboth name hold name hname rfl

end Folds

/-! ## What an item adds -/

namespace Registry

/-- A `Registry` with what another one adds. -/
def join (r s : Registry) : Registry :=
  ⟨r.symbols ++ s.symbols, s.interfaces ++ r.interfaces, r.events ++ s.events⟩

end Registry

namespace Binder

/-- A binder with what another one adds to it. -/
def after (b c : Binder) : Binder :=
  ⟨b.registry.join c.registry, b.faults ++ c.faults⟩

theorem report_after (b c : Binder) (d : Diagnostic) :
    (b.after c).report d = b.after (c.report d) := by
  simp [after, report]

/-- `bindMember` adds the same after whatever came before. -/
theorem bindMember_after (b : Binder) (interface : String) (contract : Option Hash160)
    (c : Binder) (members : List Symbol) (member : InterfaceMember) :
    bindMember interface contract (b.after c, members) member =
      (b.after (bindMember interface contract (c, members) member).1,
        (bindMember interface contract (c, members) member).2) := by
  unfold bindMember
  dsimp only
  split
  · exact congrArg (·, members) (report_after b c _)
  · split
    · exact congrArg (·, members) (report_after b c _)
    · rfl

theorem foldl_bindMember_after (b : Binder) (interface : String) (contract : Option Hash160) :
    ∀ (decls : List InterfaceMember) (c : Binder) (members : List Symbol),
      decls.foldl (bindMember interface contract) (b.after c, members) =
        (b.after (decls.foldl (bindMember interface contract) (c, members)).1,
          (decls.foldl (bindMember interface contract) (c, members)).2)
  | [], _, _ => rfl
  | decl :: rest, c, members => by
    rw [foldl_cons, foldl_cons, bindMember_after]
    exact foldl_bindMember_after b interface contract rest _ _

theorem foldl_report_after {α : Type} (b : Binder) (f : α → BindingError) :
    ∀ (as : List α) (c : Binder),
      as.foldl (fun b a => b.reportBinding (f a)) (b.after c) =
        b.after (as.foldl (fun b a => b.reportBinding (f a)) c)
  | [], _ => rfl
  | a :: rest, c => by
    rw [foldl_cons, foldl_cons, reportBinding, reportBinding, report_after]
    exact foldl_report_after b f rest _

/-- `bindInterface` adds the same after whatever came before. -/
theorem bindInterface_after (b c : Binder) (decl : InterfaceDecl) :
    (b.after c).bindInterface decl = b.after (c.bindInterface decl) := by
  unfold bindInterface
  split
  · exact report_after b c _
  · dsimp only
    rw [foldl_report_after]
    split
    · rw [foldl_bindMember_after]
      rfl
    · rfl

theorem checkBody_after (b c : Binder) (decl : FunctionDecl) :
    (b.after c).checkBody decl = b.after (c.checkBody decl) := by
  unfold checkBody
  split
  · exact report_after b c _
  · split
    · rfl
    · exact report_after b c _

/-- `Binder.define` reports a name that is bound. -/
theorem define_of_known (h : b.registry.lookup id.name ≠ none) (d : Definition) :
    b.define id d = b.report (.symbol (.duplicate id.name id.span)) := by
  obtain ⟨symbol, hsymbol⟩ := Option.ne_none_iff_exists'.mp h
  simp only [define, Registry.define, hsymbol]

/-- `Binder.define` adds a name that is new. -/
theorem define_of_new (h : b.registry.lookup id.name = none) (d : Definition) :
    b.define id d = b.after ⟨{ symbols := [⟨id.name, builtinScope, id.span, d⟩] }, []⟩ := by
  simp [define, Registry.define, h, after, Registry.join]

end Binder

/-- What a function without a body is declared as. -/
def FunctionDecl.bound (decl : FunctionDecl) : Except BindingError Definition :=
  match parseMarkers decl.tags with
  | .error e => .error e
  | .ok markers =>
    match bindMarkers markers
        ⟨decl.id.name, decl.params, !decl.returnType.isVoid, false, decl.span⟩ none with
    | .error e => .error e
    | .ok none =>
      .error (.unsupported decl.id.name "declaration without a body needs a builtin marker"
        decl.span)
    | .ok (some d) => .ok d

/-- `FunctionDecl.bound` is what the markers make of the function. -/
theorem FunctionDecl.makes_of_bound (h : decl.bound = .ok d) :
    ∃ markers, parseMarkers decl.tags = .ok markers ∧ Makes markers
      ⟨decl.id.name, decl.params, !decl.returnType.isVoid, false, decl.span⟩ none d := by
  unfold FunctionDecl.bound at h
  split at h
  · cases h
  · next markers hparse =>
    split at h
    · cases h
    · cases h
    · next hbind =>
      cases h
      exact ⟨markers, hparse, makes_of_bindMarkers hbind⟩

/-- The `Event` that a function without a body declares. -/
def FunctionDecl.events (decl : FunctionDecl) : Definition → List Event
  | .event name _ => [⟨name, slotsOf decl.params⟩]
  | _ => []

namespace Binder

/-- `bindFunction` reports a function without a body, or adds its event and its name. -/
theorem bindFunction_cases (b : Binder) (decl : FunctionDecl) :
    (∃ e, decl.bound = .error e ∧ b.bindFunction decl = b.reportBinding e) ∨
      ∃ d, decl.bound = .ok d ∧
        b.bindFunction decl = (b.after ⟨{ events := decl.events d }, []⟩).define decl.id d := by
  have hevents : ∀ d : Definition, b.after ⟨{ events := decl.events d }, []⟩ =
      { b with registry := { b.registry with events := b.registry.events ++ decl.events d } } := by
    intro d
    simp [after, Registry.join]
  cases hparse : parseMarkers decl.tags with
  | error e =>
    simp only [FunctionDecl.bound, bindFunction, hparse]
    exact .inl ⟨e, rfl, rfl⟩
  | ok markers =>
    simp only [FunctionDecl.bound, bindFunction, hparse]
    cases bindMarkers markers
        ⟨decl.id.name, decl.params, !decl.returnType.isVoid, false, decl.span⟩ none with
    | error e => exact .inl ⟨e, rfl, rfl⟩
    | ok found =>
      cases found with
      | none => exact .inl ⟨_, rfl, rfl⟩
      | some d =>
        refine .inr ⟨d, rfl, ?_⟩
        rw [hevents]
        cases d with
        | event name count => rfl
        | _ => simp [FunctionDecl.events]

theorem bindFunction_of_error {e : BindingError} (h : decl.bound = .error e) (b : Binder) :
    b.bindFunction decl = b.reportBinding e := by
  rcases bindFunction_cases b decl with ⟨e', he', heq⟩ | ⟨d, hd, -⟩
  · cases he'.symm.trans h
    exact heq
  · cases hd.symm.trans h

theorem bindFunction_of_ok (h : decl.bound = .ok d) (b : Binder) :
    b.bindFunction decl = (b.after ⟨{ events := decl.events d }, []⟩).define decl.id d := by
  rcases bindFunction_cases b decl with ⟨e, he, -⟩ | ⟨d', hd', heq⟩
  · cases he.symm.trans h
  · cases hd'.symm.trans h
    exact heq

end Binder

/-- What an `Item` adds to what was bound before. -/
def Item.bound (item : Item) : Binder :=
  ({} : Binder).bindItem item

namespace Binder

/-- The names that are bound. -/
def names (b : Binder) : List String :=
  b.registry.symbols.map Named.name

theorem lookup_eq_none_iff : b.registry.lookup name = none ↔ name ∉ b.names :=
  findSymbol_eq_none_iff

theorem bound_function_of_ok (hbody : decl.body.isSome = false) (h : decl.bound = .ok d) :
    (Item.function decl).bound =
      ⟨{ symbols := [⟨decl.id.name, builtinScope, decl.id.span, d⟩], events := decl.events d },
        []⟩ := by
  simp [Item.bound, bindItem, hbody, bindFunction_of_ok h, define, Registry.define, after,
    Registry.join, Registry.lookup, findSymbol]

theorem registry_checkBody (b : Binder) (decl : FunctionDecl) :
    (b.checkBody decl).registry = b.registry := by
  unfold checkBody
  split
  · rfl
  · split <;> rfl

theorem registry_foldl_reportBinding {α : Type} (f : α → BindingError) (as : List α) (b : Binder) :
    (as.foldl (fun b a => b.reportBinding (f a)) b).registry = b.registry :=
  List.foldlRecOn (motive := fun c : Binder => c.registry = b.registry) as _ rfl
    fun _ hc _ _ => hc

theorem registry_bindMember (interface : String) (contract : Option Hash160)
    (bm : Binder × List Symbol) (member : InterfaceMember) :
    (bindMember interface contract bm member).1.registry = bm.1.registry := by
  unfold bindMember
  dsimp only
  split
  · rfl
  · split <;> rfl

theorem registry_foldl_bindMember (interface : String) (contract : Option Hash160)
    (decls : List InterfaceMember) (bm : Binder × List Symbol) :
    (decls.foldl (bindMember interface contract) bm).1.registry = bm.1.registry :=
  List.foldlRecOn (motive := fun c : Binder × List Symbol => c.1.registry = bm.1.registry) decls _
    rfl fun c hc member _ => (registry_bindMember interface contract c member).trans hc

/-- `bindInterface` binds an interface, or leaves it out. -/
theorem registry_bindInterface (b : Binder) (decl : InterfaceDecl) :
    (b.bindInterface decl).registry = b.registry ∨ ∃ members,
      (b.bindInterface decl).registry = b.registry.bindInterface decl.id.name members := by
  unfold bindInterface
  split
  · exact .inl rfl
  · dsimp only
    split
    · refine .inr ⟨_, congrArg (Registry.bindInterface · _ _) ?_⟩
      rw [registry_foldl_bindMember]
      exact registry_foldl_reportBinding _ _ b
    · exact .inl (registry_foldl_reportBinding _ _ b)

end Binder

/-- The name of the interface that an `Item` is. -/
def Item.interfaceName? : Item → Option String
  | .interface decl => some decl.id.name
  | _ => none

/-- What an `Item` can be: a function that is declared as something, or an item that binds no name
and adds the same after whatever came before. -/
inductive Item.Binds (item : Item) : Prop where
  | function {decl : FunctionDecl} {d : Definition} : item = .function decl →
    decl.body.isSome = false → decl.bound = .ok d → Binds item
  | nothing : item.bound.registry.symbols = [] → item.bound.registry.events = [] →
    (item.bound.registry.interfaces.map Prod.fst).Sublist item.interfaceName?.toList →
    (∀ b : Binder, b.bindItem item = b.after item.bound) → Binds item

namespace Binder

/-- `bindItem` adds `Item.bound` if it adds the same after whatever came before. -/
theorem bindItem_eq_after
    (hafter : ∀ b c : Binder, (b.after c).bindItem item = b.after (c.bindItem item)) (b : Binder) :
    b.bindItem item = b.after item.bound := by
  have hempty : b.after {} = b := by simp [after, Registry.join]
  have hb := hafter b {}
  rwa [hempty] at hb

theorem binds_of_empty (hempty : item.bound.registry = {})
    (hafter : ∀ b c : Binder, (b.after c).bindItem item = b.after (c.bindItem item)) :
    item.Binds := by
  refine .nothing (by rw [hempty]) (by rw [hempty]) ?_ (bindItem_eq_after hafter)
  rw [hempty]
  exact nil_sublist _

/-- `Item.Binds`, item by item. -/
theorem binds_item (item : Item) : item.Binds := by
  cases item with
  | function decl =>
    cases hbody : decl.body.isSome with
    | true =>
      have hstep : ∀ c : Binder, c.bindItem (.function decl) = c.checkBody decl := fun c => by
        rw [bindItem, if_pos hbody]
      refine binds_of_empty ?_ fun b c => ?_
      · rw [Item.bound, hstep, registry_checkBody]
      · rw [hstep, hstep, checkBody_after]
    | false =>
      cases hbound : decl.bound with
      | error e =>
        have hstep : ∀ c : Binder, c.bindItem (.function decl) = c.reportBinding e := fun c => by
          rw [bindItem, hbody, ← bindFunction_of_error hbound c]
          rfl
        refine binds_of_empty ?_ fun b c => ?_
        · rw [Item.bound, hstep]
          rfl
        · rw [hstep, hstep, reportBinding, reportBinding, report_after]
      | ok d => exact .function rfl hbody hbound
  | interface decl =>
    have hafter : ∀ b c : Binder, (b.after c).bindItem (.interface decl) =
        b.after (c.bindItem (.interface decl)) := fun b c => bindInterface_after b c decl
    rcases registry_bindInterface {} decl with hempty | ⟨members, hbound⟩
    · exact binds_of_empty hempty hafter
    · have hregistry : (Item.interface decl).bound.registry =
          ({} : Registry).bindInterface decl.id.name members := hbound
      refine .nothing (by rw [hregistry]; rfl) (by rw [hregistry]; rfl) ?_
        (bindItem_eq_after hafter)
      rw [hregistry]
      exact List.Sublist.refl _
  | _ => exact binds_of_empty rfl fun _ _ => rfl

theorem nodup_names_bound (item : Item) : item.bound.names.Nodup := by
  cases binds_item item with
  | function hitem hbody hbound =>
    rw [hitem, names, bound_function_of_ok hbody hbound]
    exact nodup_singleton _
  | nothing hsymbols =>
    rw [names, hsymbols]
    exact nodup_nil

/-- `bindItem` adds `Item.bound` if the names of the item are new, and a fault otherwise. -/
theorem bindItem_cases (b : Binder) (item : Item) :
    ((∀ name ∈ item.bound.names, name ∉ b.names) ∧ b.bindItem item = b.after item.bound) ∨
      ((∃ name ∈ item.bound.names, name ∈ b.names) ∧ (b.bindItem item).faults ≠ []) := by
  cases binds_item item with
  | nothing hsymbols _ _ hafter =>
    refine .inl ⟨?_, hafter b⟩
    rw [names, hsymbols]
    exact forall_mem_nil _
  | @function decl d hitem hbody hbound =>
    subst hitem
    have hstep : b.bindItem (.function decl) =
        (b.after ⟨{ events := decl.events d }, []⟩).define decl.id d := by
      rw [bindItem, hbody, ← bindFunction_of_ok hbound]
      rfl
    have hnames : (Item.function decl).bound.names = [decl.id.name] := by
      rw [names, bound_function_of_ok hbody hbound]
      rfl
    -- the event that is recorded first does not change the names
    have hlookup : (b.after ⟨{ events := decl.events d }, []⟩).registry.lookup decl.id.name =
        b.registry.lookup decl.id.name := by
      exact find?_append.trans Option.or_none
    rw [hnames, hstep]
    by_cases hnew : b.registry.lookup decl.id.name = none
    · refine .inl ⟨forall_mem_singleton.mpr (lookup_eq_none_iff.mp hnew), ?_⟩
      rw [← hlookup] at hnew
      rw [define_of_new hnew, bound_function_of_ok hbody hbound]
      simp [after, Registry.join]
    · refine .inr ⟨⟨_, mem_singleton_self _, ?_⟩, ?_⟩
      · exact Decidable.not_not.mp fun hname => hnew (lookup_eq_none_iff.mpr hname)
      · rw [← hlookup] at hnew
        rw [define_of_known hnew]
        exact append_ne_nil_of_right_ne_nil _ (cons_ne_nil _ _)

/-- When `bindItem` has no fault to report. -/
theorem faults_bindItem_iff (b : Binder) (item : Item) :
    (b.bindItem item).faults = [] ↔
      b.faults = [] ∧ item.bound.faults = [] ∧ ∀ name ∈ item.bound.names, name ∉ b.names := by
  rcases bindItem_cases b item with ⟨hnew, heq⟩ | ⟨⟨name, hname, hold⟩, hfaults⟩
  · rw [heq, after, append_eq_nil_iff]
    exact ⟨fun h => ⟨h.1, h.2, hnew⟩, fun h => ⟨h.1, h.2.1⟩⟩
  · exact iff_of_false hfaults fun h => h.2.2 name hname hold

theorem bindItem_of_faults (h : (b.bindItem item).faults = []) :
    b.bindItem item = b.after item.bound := by
  rcases bindItem_cases b item with ⟨-, heq⟩ | ⟨-, hfaults⟩
  · exact heq
  · exact absurd h hfaults

/-! ## All items -/

section Items

variable {items : List Item}

/-- Items are bound without a fault if each of them is, and their names are distinct. -/
theorem faults_foldl_bindItem_iff :
    (items.foldl bindItem {}).faults = [] ↔
      (∀ item ∈ items, item.bound.faults = []) ∧ (items.flatMap (·.bound.names)).Nodup := by
  have hfold := clean_foldl_iff (C := fun b : Binder => b.faults = []) (N := names)
    (F := fun item : Item => item.bound.faults = []) (A := fun item => item.bound.names)
    faults_bindItem_iff
    (fun b item h => by
      show names (b.bindItem item) = _
      rw [bindItem_of_faults h, names, after, Registry.join, map_append]
      rfl)
    nodup_names_bound items {} nodup_nil
  rw [hfold]
  exact ⟨fun h => h.2, fun h => ⟨rfl, h⟩⟩

/-- What a part of the registry holds after all items. -/
theorem foldl_bindItem_eq {β : Type} {v : Binder → List β} (hempty : v {} = [])
    (hvalue : ∀ b c : Binder, v (b.after c) = v b ++ v c)
    (h : (items.foldl bindItem {}).faults = []) :
    v (items.foldl bindItem {}) = items.flatMap fun item => v item.bound := by
  have hfold := foldl_adds (C := fun b : Binder => b.faults = [])
    (fun b item hb => ((faults_bindItem_iff b item).mp hb).1) (v := v)
    (g := fun item : Item => v item.bound)
    (fun b item hb => by rw [bindItem_of_faults hb, hvalue]) h
  rw [hfold, hempty, nil_append]

end Items

/-! ## Global objects -/

/-- The `Symbol` of an object whose interface is among those given. -/
def objectSymbol? (interfaces : List (String × List Symbol)) (decl : ObjectDecl) : Option Symbol :=
  (interfaces.lookup decl.interface.name).map fun members =>
    ⟨decl.id.name, builtinScope, decl.id.span, .object members⟩

/-- No faults so far, and the interfaces are those given. -/
def Over (interfaces : List (String × List Symbol)) (b : Binder) : Prop :=
  b.faults = [] ∧ b.registry.interfaces = interfaces

section Objects

variable {interfaces : List (String × List Symbol)}

/-- `bindObject` adds the `objectSymbol?` under a new name, or a fault. -/
theorem bindObject_cases (hb : b.registry.interfaces = interfaces) (decl : ObjectDecl) :
    (∃ symbol, objectSymbol? interfaces decl = some symbol ∧ symbol.name = decl.id.name ∧
      decl.id.name ∉ b.names ∧ b.bindObject decl = b.after ⟨{ symbols := [symbol] }, []⟩) ∨
    (¬((objectSymbol? interfaces decl).isSome ∧ decl.id.name ∉ b.names) ∧
      (b.bindObject decl).faults ≠ []) := by
  have hreport : ∀ d, (b.report d).faults ≠ [] := fun d =>
    append_ne_nil_of_right_ne_nil _ (cons_ne_nil _ _)
  subst hb
  unfold bindObject Registry.interface? objectSymbol?
  cases hfound : b.registry.interfaces.lookup decl.interface.name with
  | none => exact .inr ⟨fun h => Bool.false_ne_true h.1, hreport _⟩
  | some members =>
    dsimp only
    by_cases hnew : b.registry.lookup decl.id.name = none
    · rw [define_of_new hnew]
      exact .inl ⟨_, rfl, rfl, lookup_eq_none_iff.mp hnew, rfl⟩
    · rw [define_of_known hnew]
      exact .inr ⟨fun h => hnew (lookup_eq_none_iff.mpr h.2), hreport _⟩

/-- `bindObject` changes nothing but the symbols. -/
theorem registry_bindObject (b : Binder) (decl : ObjectDecl) :
    (b.bindObject decl).registry.interfaces = b.registry.interfaces ∧
      (b.bindObject decl).registry.events = b.registry.events := by
  unfold bindObject
  split
  · unfold define Registry.define
    split
    · next hr =>
      split at hr
      · cases hr
      · cases hr
        exact ⟨rfl, rfl⟩
    · exact ⟨rfl, rfl⟩
  · exact ⟨rfl, rfl⟩

theorem registry_foldl_bindObject (b : Binder) (objects : List ObjectDecl) :
    (objects.foldl bindObject b).registry.interfaces = b.registry.interfaces ∧
      (objects.foldl bindObject b).registry.events = b.registry.events :=
  List.foldlRecOn (motive := fun c : Binder => c.registry.interfaces = b.registry.interfaces ∧
      c.registry.events = b.registry.events) objects bindObject ⟨rfl, rfl⟩
    fun c hc decl _ => ⟨(registry_bindObject c decl).1.trans hc.1,
      (registry_bindObject c decl).2.trans hc.2⟩

/-- When `bindObject` has no fault to report. -/
theorem over_bindObject_iff (b : Binder) (decl : ObjectDecl) :
    Over interfaces (b.bindObject decl) ↔ Over interfaces b ∧
      (objectSymbol? interfaces decl).isSome ∧ ∀ name ∈ [decl.id.name], name ∉ b.names := by
  rw [Over, Over, (registry_bindObject b decl).1, forall_mem_singleton]
  by_cases hb : b.registry.interfaces = interfaces
  · rcases bindObject_cases hb decl with ⟨symbol, hsymbol, -, hnew, heq⟩ | ⟨hnot, hfaults⟩
    · rw [heq, after, append_nil, hsymbol]
      exact ⟨fun h => ⟨h, rfl, hnew⟩, fun h => h.1⟩
    · exact iff_of_false (fun h => hfaults h.1) fun h => hnot h.2
  · exact iff_of_false (fun h => hb h.2) fun h => hb h.1.2

/-- `bindObject` adds the `objectSymbol?`. -/
theorem symbols_bindObject {decl : ObjectDecl} (h : Over interfaces (b.bindObject decl)) :
    (b.bindObject decl).registry.symbols =
        b.registry.symbols ++ (objectSymbol? interfaces decl).toList ∧
      (objectSymbol? interfaces decl).toList.map Named.name = [decl.id.name] := by
  have hb := ((over_bindObject_iff b decl).mp h).1.2
  rcases bindObject_cases hb decl with ⟨symbol, hsymbol, hname, -, heq⟩ | ⟨-, hfaults⟩
  · rw [heq, hsymbol, ← hname]
    exact ⟨rfl, rfl⟩
  · exact absurd h.1 hfaults

theorem names_bindObject (b : Binder) (decl : ObjectDecl)
    (h : Over interfaces (b.bindObject decl)) :
    (b.bindObject decl).names = b.names ++ [decl.id.name] := by
  obtain ⟨hsymbols, hnames⟩ := symbols_bindObject h
  rw [names, hsymbols, map_append, hnames]
  rfl

/-- Objects are bound without a fault if their interfaces are, and their names are new and distinct.
-/
theorem over_foldl_bindObject_iff (hb : b.names.Nodup) (objects : List ObjectDecl) :
    Over interfaces (objects.foldl bindObject b) ↔ Over interfaces b ∧
      (∀ decl ∈ objects, (objectSymbol? interfaces decl).isSome) ∧
      (b.names ++ objects.map (·.id.name)).Nodup := by
  rw [clean_foldl_iff over_bindObject_iff names_bindObject (fun _ => nodup_singleton _)
    objects b hb, ← map_eq_flatMap]

theorem symbols_foldl_bindObject (b : Binder) (objects : List ObjectDecl)
    (h : Over interfaces (objects.foldl bindObject b)) :
    (objects.foldl bindObject b).registry.symbols =
      b.registry.symbols ++ objects.flatMap fun decl => (objectSymbol? interfaces decl).toList :=
  foldl_adds (fun b decl h => ((over_bindObject_iff b decl).mp h).1)
    (v := fun b => b.registry.symbols) (fun _ _ h => (symbols_bindObject h).1) h

theorem names_foldl_bindObject (b : Binder) (objects : List ObjectDecl)
    (h : Over interfaces (objects.foldl bindObject b)) :
    (objects.foldl bindObject b).names = b.names ++ objects.map (·.id.name) := by
  rw [map_eq_flatMap]
  exact foldl_adds (fun b decl h => ((over_bindObject_iff b decl).mp h).1) names_bindObject h

end Objects

end Binder

/-! ## Events and interfaces -/

/-- Whether a function is the declaration of an event. -/
def FunctionDecl.isEvent (decl : FunctionDecl) : Bool :=
  decl.body.isNone && decl.tags.any (·.name == "event")

/-- The event declaration that an `Item` is. -/
def Item.eventDecl? : Item → Option FunctionDecl
  | .function decl => if decl.isEvent then some decl else none
  | _ => none

/-- The declarations of events, in order. -/
def Program.eventDecls (p : Program) : List FunctionDecl :=
  p.items.filterMap Item.eventDecl?

/-- The names of the interfaces, in order. -/
def Program.interfaceNames (p : Program) : List String :=
  p.items.filterMap Item.interfaceName?

/-- What `FunctionDecl.bound` makes an event carries the tag of events. -/
theorem isEvent_of_bound (hbody : decl.body.isSome = false)
    (h : decl.bound = .ok (.event name count)) : decl.isEvent = true := by
  obtain ⟨markers, hparse, hmakes⟩ := FunctionDecl.makes_of_bound h
  cases hmakes with
  | @event event hmarkers =>
    have hmem : .event event ∈ markers.filter (!·.isSafe) := hmarkers ▸ mem_cons_self
    obtain ⟨tag, htag, hsaid⟩ := exists_of_parseMarkers hparse (mem_filter.mp hmem).1
    rw [FunctionDecl.isEvent, ← Option.not_isSome, hbody]
    exact any_eq_true.mpr ⟨tag, htag, beq_iff_eq.mpr hsaid.tagName_eq.symm⟩

theorem Item.eq_of_eventDecl? (h : item.eventDecl? = some decl) : item = .function decl := by
  cases item with
  | function decl' =>
    rw [Item.eventDecl?, Option.ite_none_right_eq_some] at h
    rw [Option.some.inj h.2]
  | _ => cases h

/-- Only an `Item.eventDecl?` adds an event. -/
theorem events_bound (item : Item) :
    item.bound.registry.events =
      item.eventDecl?.toList.flatMap fun decl => (Item.function decl).bound.registry.events := by
  cases hdecl : item.eventDecl? with
  | some decl =>
    rw [Item.eq_of_eventDecl? hdecl]
    exact (flatMap_singleton _ _).symm
  | none =>
    cases Binder.binds_item item with
    | nothing _ hevents => exact hevents
    | @function decl d hitem hbody hbound =>
      subst hitem
      rw [Binder.bound_function_of_ok hbody hbound]
      cases d with
      | event name count =>
        rw [Item.eventDecl?, isEvent_of_bound hbody hbound] at hdecl
        cases hdecl
      | _ => rfl

theorem flatMap_events_bound (items : List Item) :
    items.flatMap (·.bound.registry.events) =
      (items.filterMap Item.eventDecl?).flatMap fun decl =>
        (Item.function decl).bound.registry.events := by
  induction items with
  | nil => rfl
  | cons item rest ih =>
    rw [flatMap_cons, ih, events_bound]
    cases hdecl : item.eventDecl? with
    | none =>
      rw [filterMap_cons_none hdecl]
      rfl
    | some decl =>
      rw [filterMap_cons_some hdecl, flatMap_cons]
      exact congrArg (· ++ _) (flatMap_singleton _ _)

/-- An item binds an interface under its own name only. -/
theorem interfaces_bound (item : Item) :
    (item.bound.registry.interfaces.reverse.map Prod.fst).Sublist item.interfaceName?.toList := by
  cases Binder.binds_item item with
  | function hitem hbody hbound =>
    rw [hitem, Binder.bound_function_of_ok hbody hbound]
    exact nil_sublist _
  | nothing _ _ hinterfaces =>
    have hself : item.interfaceName?.toList.reverse = item.interfaceName?.toList := by
      cases item.interfaceName? <;> rfl
    have hreverse := hinterfaces.reverse
    rw [← map_reverse, hself] at hreverse
    exact hreverse

/-- Interfaces whose names are distinct are bound under distinct names. -/
theorem nodup_interfaces {items : List Item} (h : (items.filterMap Item.interfaceName?).Nodup) :
    ((items.flatMap (·.bound.registry.interfaces.reverse)).map Prod.fst).Nodup := by
  refine List.Nodup.sublist ?_ h
  clear h
  induction items with
  | nil => exact List.Sublist.refl _
  | cons item rest ih =>
    have hfirst := interfaces_bound item
    rw [flatMap_cons, map_append]
    cases hname : item.interfaceName? with
    | none =>
      rw [hname] at hfirst
      rw [filterMap_cons_none hname]
      exact hfirst.append ih
    | some name =>
      rw [hname] at hfirst
      rw [filterMap_cons_some hname]
      exact hfirst.append ih

/-! ## The program -/

namespace Program

/-- What the items of a `Program` bind, without the global objects. -/
def boundItems (p : Program) : Binder :=
  p.items.foldl Binder.bindItem {}

section OneOrder

variable {p : Program}

theorem faults_boundItems_iff : p.boundItems.faults = [] ↔
    (∀ item ∈ p.items, item.bound.faults = []) ∧ (p.items.flatMap (·.bound.names)).Nodup :=
  Binder.faults_foldl_bindItem_iff

theorem names_boundItems (h : p.boundItems.faults = []) :
    p.boundItems.names = p.items.flatMap (·.bound.names) :=
  Binder.foldl_bindItem_eq rfl (fun _ _ => map_append) h

/-- `bindProgram` has no fault to report if its items have none, all names are distinct, and every
global object has its interface. -/
theorem faults_bindProgram_iff : (bindProgram p).2 = [] ↔
    (∀ item ∈ p.items, item.bound.faults = []) ∧
      (∀ decl ∈ p.objects,
        (Binder.objectSymbol? p.boundItems.registry.interfaces decl).isSome) ∧
      (p.items.flatMap (·.bound.names) ++ p.objects.map (·.id.name)).Nodup := by
  have hover : (bindProgram p).2 = [] ↔ Binder.Over p.boundItems.registry.interfaces
      (p.objects.foldl Binder.bindObject p.boundItems) :=
    ⟨fun h => ⟨h, (Binder.registry_foldl_bindObject _ _).1⟩, fun h => h.1⟩
  rw [hover]
  by_cases hitems : p.boundItems.faults = []
  · obtain ⟨hfaults, hnodup⟩ := faults_boundItems_iff.mp hitems
    have hnames := names_boundItems hitems
    rw [Binder.over_foldl_bindObject_iff (hnames ▸ hnodup), hnames]
    exact ⟨fun h => ⟨hfaults, h.2⟩, fun h => ⟨⟨hitems, rfl⟩, h.2⟩⟩
  · refine iff_of_false (fun h => hitems ?_) fun h => hitems ?_
    · exact (clean_of_foldl (fun b decl hb => ((Binder.over_bindObject_iff b decl).mp hb).1) h).1
    · exact faults_boundItems_iff.mpr ⟨h.1, (nodup_append.mp h.2.2).1⟩

section

variable (h : (bindProgram p).2 = [])
include h

theorem faults_boundItems : p.boundItems.faults = [] := by
  obtain ⟨hfaults, -, hnodup⟩ := faults_bindProgram_iff.mp h
  exact faults_boundItems_iff.mpr ⟨hfaults, (nodup_append.mp hnodup).1⟩

/-- The names that the host provides are distinct. -/
theorem nodup_bindProgram : ((bindProgram p).1.symbols.map Named.name).Nodup := by
  have hnodup := (faults_bindProgram_iff.mp h).2.2
  rw [← names_boundItems (faults_boundItems h)] at hnodup
  rw [← Binder.names_foldl_bindObject p.boundItems p.objects
    ⟨h, (Binder.registry_foldl_bindObject _ _).1⟩] at hnodup
  exact hnodup

/-- The symbols of `bindProgram`: those of the items, then the global objects. -/
theorem symbols_bindProgram :
    (bindProgram p).1.symbols = p.items.flatMap (·.bound.registry.symbols) ++
      p.objects.flatMap fun decl =>
        (Binder.objectSymbol? p.boundItems.registry.interfaces decl).toList := by
  have hitems := Binder.foldl_bindItem_eq (v := fun b => b.registry.symbols) rfl
    (fun _ _ => rfl) (faults_boundItems h)
  have hobjects := Binder.symbols_foldl_bindObject p.boundItems p.objects
    ⟨h, (Binder.registry_foldl_bindObject _ _).1⟩
  exact hobjects.trans (congrArg (· ++ _) hitems)

/-- The events of `bindProgram` are those of `Program.eventDecls`. -/
theorem events_bindProgram : (bindProgram p).1.events =
      p.eventDecls.flatMap fun decl => (Item.function decl).bound.registry.events := by
  have hitems := Binder.foldl_bindItem_eq (v := fun b => b.registry.events) rfl
    (fun _ _ => rfl) (faults_boundItems h)
  have hobjects := (Binder.registry_foldl_bindObject p.boundItems p.objects).2
  exact hobjects.trans (hitems.trans (flatMap_events_bound p.items))

end

theorem interfaces_boundItems (h : p.boundItems.faults = []) :
    p.boundItems.registry.interfaces.reverse =
      p.items.flatMap (·.bound.registry.interfaces.reverse) :=
  Binder.foldl_bindItem_eq (v := fun b => b.registry.interfaces.reverse) rfl
    (fun _ _ => reverse_append) h

end OneOrder

section Orders

variable {p p' : Program}

variable (hperm : p'.items.Perm p.items)
include hperm

theorem faults_boundItems_perm (h : p.boundItems.faults = []) : p'.boundItems.faults = [] := by
  obtain ⟨hfaults, hnodup⟩ := faults_boundItems_iff.mp h
  exact faults_boundItems_iff.mpr ⟨fun item hitem => hfaults item (hperm.mem_iff.mp hitem),
    (hperm.flatMap_right _).nodup_iff.mpr hnodup⟩

/-- `objectSymbol?` finds the same interfaces. -/
theorem objectSymbol?_perm (hnames : p.interfaceNames.Nodup) (h : p.boundItems.faults = [])
    (decl : ObjectDecl) : Binder.objectSymbol? p'.boundItems.registry.interfaces decl =
      Binder.objectSymbol? p.boundItems.registry.interfaces decl := by
  have h' := faults_boundItems_perm hperm h
  have hreverse : p.boundItems.registry.interfaces.reverse.Perm
      p'.boundItems.registry.interfaces.reverse := by
    rw [interfaces_boundItems h, interfaces_boundItems h']
    exact (hperm.flatMap_right _).symm
  have hinterfaces : p.boundItems.registry.interfaces.Perm p'.boundItems.registry.interfaces :=
    (reverse_perm _).symm.trans (hreverse.trans (reverse_perm _))
  have hnodup : (p.boundItems.registry.interfaces.map Prod.fst).Nodup := by
    have hkeys := nodup_interfaces hnames
    rw [← interfaces_boundItems h] at hkeys
    exact ((reverse_perm _).map Prod.fst).nodup_iff.mp hkeys
  rw [Binder.objectSymbol?, Binder.objectSymbol?, lookup_perm hinterfaces hnodup]

/-- `bindProgram` provides the same to the items of a program in another order. -/
theorem bindProgram_perm (hevents : p'.eventDecls = p.eventDecls)
    (hnames : p.interfaceNames.Nodup) (h : (bindProgram p).2 = []) :
    (bindProgram p').2 = [] ∧ (bindProgram p').1.symbols.Perm (bindProgram p).1.symbols ∧
      (bindProgram p').1.events = (bindProgram p).1.events := by
  have hsymbol := objectSymbol?_perm hperm hnames (faults_boundItems h)
  have hdecls : p'.objects.Perm p.objects := hperm.filterMap _
  have h' : (bindProgram p').2 = [] := by
    obtain ⟨hfaults, hobjects, hnodup⟩ := faults_bindProgram_iff.mp h
    refine faults_bindProgram_iff.mpr ⟨fun item hitem => hfaults item (hperm.mem_iff.mp hitem),
      fun decl hdecl => ?_, ?_⟩
    · rw [hsymbol]
      exact hobjects decl (hdecls.mem_iff.mp hdecl)
    · exact ((hperm.flatMap_right _).append (hdecls.map _)).nodup_iff.mpr hnodup
  refine ⟨h', ?_, ?_⟩
  · rw [symbols_bindProgram h, symbols_bindProgram h']
    simp only [hsymbol]
    exact (hperm.flatMap_right _).append (hdecls.flatMap_right _)
  · rw [events_bindProgram h, events_bindProgram h', hevents]

end Orders

end Program

end ContractScript
