import Mathlib.Data.List.Nodup
import ContractScript.Proofs.Evaluation
import ContractScript.Symbol.Binding

/-!
# Lexical scope

Which variable each name in a function stands for, told from the source alone. A walk through the
function (`Survey`) keeps the variables in scope, innermost first. A name stands for the first of
them that has it, and the variables of a block are out of scope after it. Variables are numbered by
kind in the order of their declarations, and a number is never used again.
-/

namespace ContractScript

open List

variable {slots : SlotKind → List Slot} {name : String} {slot : SlotKind × Nat} {vars : Variables}
  {a : Access} {kind : SlotKind} {names : List String} {p : Program}

/-! ## Accesses -/

/-- Variables by name, innermost first. Each is told by its kind and its number. -/
abbrev Variables := Bindings (SlotKind × Nat)

/-- A read of a variable, or a write to it. -/
structure Access where
  name : String
  isWrite : Bool
  /-- The variables in scope where the name stands. -/
  vars : Variables
  slot : SlotKind × Nat
deriving DecidableEq

/-- The `Operation` that makes an access. -/
def Access.operation (a : Access) : Operation :=
  bif a.isWrite then .store a.slot.1 a.slot.2 else .load a.slot.1 a.slot.2

/-- The `Access` to the innermost variable of a name, if there is one. -/
def Variables.access (vars : Variables) (isWrite : Bool) (name : String) : List Access :=
  ((vars.lookup name).map fun slot => ⟨name, isWrite, vars, slot⟩).toList

/-- The write to the variable that an `Expr` names. -/
def Expr.writes (vars : Variables) (target : Expr) : List Access :=
  match target.unparenthesized with
  | .ident id _ _ => vars.access true id.name
  | _ => []

mutual

/-- The accesses of an `Expr`. The name of what is called is no variable. -/
def Expr.accesses (vars : Variables) (e : Expr) : List Access :=
  match e with
  | .literal _ _ _ | .other _ _ => []
  | .ident id _ _ => vars.access false id.name
  | .binary _ left right _ _ => left.accesses vars ++ right.accesses vars
  | .unary _ operand _ _ => operand.accesses vars
  | .assign op target value _ =>
    (bif op.isSome then target.accesses vars else []) ++ value.accesses vars ++ target.writes vars
  | .call _ args _ _ => Expr.argAccesses vars args
  | .member object _ _ _ => object.accesses vars
  | .paren inner _ => inner.accesses vars
termination_by structural e

/-- The accesses of arguments, the last one first. -/
def Expr.argAccesses (vars : Variables) (args : List Expr) : List Access :=
  match args with
  | [] => []
  | arg :: rest => Expr.argAccesses vars rest ++ arg.accesses vars
termination_by structural args

end

/-! ## The walk through a function -/

/-- What a walk through a function has met so far. -/
structure Survey where
  /-- The variables in scope. -/
  vars : Variables
  /-- The local variables by number. -/
  locals : List Slot := []
  accesses : List Access := []

namespace Survey

/-- Go through an `Expr`. -/
def visit (x : Survey) (e : Expr) : Survey :=
  { x with accesses := x.accesses ++ e.accesses x.vars }

/-- Declare a local variable, which takes the next number. -/
def declare (x : Survey) (name : String) (ty : ParamType) : Survey :=
  { x with
    vars := (name, .local, x.locals.length) :: x.vars
    locals := x.locals ++ [⟨name, ty⟩] }

/-- Write to the innermost variable of a name. -/
def write (x : Survey) (name : String) : Survey :=
  { x with accesses := x.accesses ++ x.vars.access true name }

/-- Leave a block: the variables in scope are those from before it. -/
def leaveTo (x before : Survey) : Survey :=
  { x with vars := before.vars }

end Survey

mutual

/-- Go through a `Stmt`. A value is evaluated before the name it is for is declared, and a branch is
no block of its own. -/
def Stmt.survey (s : Stmt) (x : Survey) : Survey :=
  match s with
  | .expr e _ | .throw e _ => x.visit e
  | .declare id ty init _ _ =>
    match init with
    | none => x.declare id.name (ParamType.ofTy ty)
    | some value => ((x.visit value).declare id.name (ParamType.ofTy ty)).write id.name
  | .return value _ =>
    match value with
    | none => x
    | some e => x.visit e
  | .break _ | .continue _ | .other _ _ => x
  | .block body => body.survey x
  | .if condition thenBranch elseBranch _ =>
    match elseBranch with
    | none => thenBranch.survey (x.visit condition)
    | some branch => branch.survey (thenBranch.survey (x.visit condition))
  | .while condition body _ => body.survey (x.visit condition)
  | .try body handler finalizer _ =>
    let x := body.survey x
    let x :=
      match handler with
      | none => x
      | some clause => clause.survey x
    match finalizer with
    | none => x
    | some last => last.survey x
termination_by structural s

/-- Go through `Stmt`s in order. -/
def Stmt.surveyAll (ss : List Stmt) (x : Survey) : Survey :=
  match ss with
  | [] => x
  | s :: rest => Stmt.surveyAll rest (s.survey x)
termination_by structural ss

/-- Go through a `Block`. -/
def Block.survey (b : Block) (x : Survey) : Survey :=
  match b with
  | ⟨ss, _⟩ => (Stmt.surveyAll ss x).leaveTo x
termination_by structural b

/-- Go through a `CatchClause`, which writes the exception to a variable of its own. -/
def CatchClause.survey (c : CatchClause) (x : Survey) : Survey :=
  match c with
  | ⟨none, body, _⟩ => (body.survey x).leaveTo x
  | ⟨some id, body, _⟩ => (body.survey ((x.declare id.name .any).write id.name)).leaveTo x
termination_by structural c

end

/-- Variables of one kind, numbered in order. -/
def numbered (kind : SlotKind) (names : List String) : Variables :=
  names.zipIdx.map fun (name, index) => (name, kind, index)

/-- The static variables of a `Program`. -/
def Program.staticVariables (p : Program) : Variables :=
  numbered .static (p.statics.map (·.id.name))

/-- The walk through a function, where its parameters are in scope before the static variables. -/
def FunctionDecl.survey (statics : Variables) (decl : FunctionDecl) : Survey :=
  let x : Survey := ⟨(numbered .argument (decl.params.map (·.id.name))).reverse ++ statics, [], []⟩
  match decl.body with
  | none => x
  | some body => body.survey x

/-- Go through the value of a static variable, if it has one. -/
def StaticDecl.survey (x : Survey) (decl : StaticDecl) : Survey :=
  match decl.init with
  | none => x
  | some value => (x.visit value).write decl.id.name

/-- The walk through the values of the static variables. -/
def Program.staticSurvey (p : Program) : Survey :=
  p.statics.foldl StaticDecl.survey ⟨p.staticVariables, [], []⟩

/-! ## Local variables -/

mutual

/-- The local variables that a `Stmt` declares, in order. -/
def Stmt.declared (s : Stmt) : List Slot :=
  match s with
  | .declare id ty _ _ _ => [⟨id.name, ParamType.ofTy ty⟩]
  | .block body => body.declared
  | .if _ thenBranch elseBranch _ =>
    thenBranch.declared ++
      match elseBranch with
      | none => []
      | some branch => branch.declared
  | .while _ body _ => body.declared
  | .try body handler finalizer _ =>
    body.declared ++
      (match handler with
      | none => []
      | some clause => clause.declared) ++
      match finalizer with
      | none => []
      | some last => last.declared
  | .expr _ _ | .return _ _ | .throw _ _ | .break _ | .continue _ | .other _ _ => []
termination_by structural s

def Stmt.allDeclared (ss : List Stmt) : List Slot :=
  match ss with
  | [] => []
  | s :: rest => s.declared ++ Stmt.allDeclared rest
termination_by structural ss

def Block.declared (b : Block) : List Slot :=
  match b with
  | ⟨ss, _⟩ => Stmt.allDeclared ss
termination_by structural b

/-- The parameter of a `CatchClause` is a local variable too. -/
def CatchClause.declared (c : CatchClause) : List Slot :=
  match c with
  | ⟨none, body, _⟩ => body.declared
  | ⟨some id, body, _⟩ => ⟨id.name, .any⟩ :: body.declared
termination_by structural c

end

/-- The local variables of a function. -/
def FunctionDecl.declared (decl : FunctionDecl) : List Slot :=
  match decl.body with
  | none => []
  | some body => body.declared

namespace Survey

@[simp] theorem locals_visit (x : Survey) (e : Expr) : (x.visit e).locals = x.locals := rfl

@[simp] theorem locals_declare (x : Survey) (name : String) (ty : ParamType) :
    (x.declare name ty).locals = x.locals ++ [⟨name, ty⟩] := rfl

@[simp] theorem locals_write (x : Survey) (name : String) : (x.write name).locals = x.locals := rfl

@[simp] theorem locals_leaveTo (x before : Survey) : (x.leaveTo before).locals = x.locals := rfl

end Survey

mutual

/-- `survey` gives each declaration of a statement the next number. -/
theorem Stmt.locals_survey (s : Stmt) (x : Survey) :
    (s.survey x).locals = x.locals ++ s.declared := by
  match s with
  | .expr _ _ | .throw _ _ | .break _ | .continue _ | .other _ _ | .return none _
  | .return (some _) _ =>
    simp [Stmt.survey, Stmt.declared]
  | .declare _ _ none _ _ | .declare _ _ (some _) _ _ => simp [Stmt.survey, Stmt.declared]
  | .block body => simp [Stmt.survey, Stmt.declared, body.locals_survey]
  | .if _ thenBranch none _ => simp [Stmt.survey, Stmt.declared, thenBranch.locals_survey]
  | .if _ thenBranch (some branch) _ =>
    simp [Stmt.survey, Stmt.declared, thenBranch.locals_survey, branch.locals_survey]
  | .while _ body _ => simp [Stmt.survey, Stmt.declared, body.locals_survey]
  | .try body none none _ => simp [Stmt.survey, Stmt.declared, body.locals_survey]
  | .try body (some clause) none _ =>
    simp [Stmt.survey, Stmt.declared, body.locals_survey, clause.locals_survey]
  | .try body none (some last) _ =>
    simp [Stmt.survey, Stmt.declared, body.locals_survey, last.locals_survey]
  | .try body (some clause) (some last) _ =>
    simp [Stmt.survey, Stmt.declared, body.locals_survey, clause.locals_survey, last.locals_survey]

theorem Stmt.locals_surveyAll (ss : List Stmt) (x : Survey) :
    (Stmt.surveyAll ss x).locals = x.locals ++ Stmt.allDeclared ss := by
  match ss with
  | [] => simp [Stmt.surveyAll, Stmt.allDeclared]
  | s :: rest =>
    simp [Stmt.surveyAll, Stmt.allDeclared, s.locals_survey, Stmt.locals_surveyAll rest]

theorem Block.locals_survey (b : Block) (x : Survey) :
    (b.survey x).locals = x.locals ++ b.declared := by
  match b with
  | ⟨ss, _⟩ => simp [Block.survey, Block.declared, Stmt.locals_surveyAll ss]

theorem CatchClause.locals_survey (c : CatchClause) (x : Survey) :
    (c.survey x).locals = x.locals ++ c.declared := by
  match c with
  | ⟨none, body, _⟩ => simp [CatchClause.survey, CatchClause.declared, body.locals_survey]
  | ⟨some id, body, _⟩ => simp [CatchClause.survey, CatchClause.declared, body.locals_survey]

end

/-! ## Names -/

/-- The variables of each kind by number. -/
def slotsByKind (params locals statics : List Slot) : SlotKind → List Slot
  | .argument => params
  | .local => locals
  | .static => statics

/-- The variable in a slot has a name. -/
def Owned (slots : SlotKind → List Slot) (name : String) (slot : SlotKind × Nat) : Prop :=
  (slots slot.1)[slot.2]?.map Slot.name = some name

/-- What is `Owned` is the slot of a variable. -/
theorem Owned.lt (h : Owned slots name slot) : slot.2 < (slots slot.1).length := by
  obtain ⟨_, hslot, -⟩ := Option.map_eq_some_iff.mp h
  exact (List.getElem?_eq_some_iff.mp hslot).1

/-- What is owned stays so when more local variables are declared. -/
theorem Owned.of_isPrefix {params locals locals' statics : List Slot}
    (h : Owned (slotsByKind params locals statics) name slot) (hlocals : locals <+: locals') :
    Owned (slotsByKind params locals' statics) name slot := by
  obtain ⟨kind, index⟩ := slot
  cases kind with
  | argument => exact h
  | static => exact h
  | «local» =>
    obtain ⟨more, rfl⟩ := hlocals
    have hlt : index < locals.length := h.lt
    show (locals ++ more)[index]?.map Slot.name = some name
    rw [getElem?_append_left hlt]
    exact h

/-- `Variables.access` looks a name up. -/
theorem lookup_of_mem_access {isWrite : Bool} (h : a ∈ vars.access isWrite name) :
    a.vars = vars ∧ vars.lookup a.name = some a.slot := by
  obtain ⟨slot, hslot, rfl⟩ := Option.map_eq_some_iff.mp (Option.mem_toList.mp h)
  exact ⟨rfl, hslot⟩

theorem Expr.lookup_of_mem_writes {target : Expr} (h : a ∈ target.writes vars) :
    a.vars = vars ∧ vars.lookup a.name = some a.slot := by
  unfold Expr.writes at h
  split at h
  · exact lookup_of_mem_access h
  · cases h

mutual

/-- `accesses` of an expression are to the innermost variables of names. -/
theorem Expr.lookup_of_mem_accesses {vars : Variables} (e : Expr) {a : Access}
    (h : a ∈ e.accesses vars) : a.vars = vars ∧ vars.lookup a.name = some a.slot := by
  match e with
  | .literal _ _ _ => cases h
  | .other _ _ => cases h
  | .ident _ _ _ => exact lookup_of_mem_access h
  | .binary _ left right _ _ =>
    rcases mem_append.mp h with h | h
    · exact left.lookup_of_mem_accesses h
    · exact right.lookup_of_mem_accesses h
  | .unary _ operand _ _ => exact operand.lookup_of_mem_accesses h
  | .assign op target value _ =>
    rcases mem_append.mp h with h | h
    · rcases mem_append.mp h with h | h
      · cases op with
        | none => cases h
        | some _ => exact target.lookup_of_mem_accesses h
      · exact value.lookup_of_mem_accesses h
    · exact Expr.lookup_of_mem_writes h
  | .call _ args _ _ => exact Expr.lookup_of_mem_argAccesses args h
  | .member object _ _ _ => exact object.lookup_of_mem_accesses h
  | .paren inner _ => exact inner.lookup_of_mem_accesses h

theorem Expr.lookup_of_mem_argAccesses {vars : Variables} (args : List Expr) {a : Access}
    (h : a ∈ Expr.argAccesses vars args) : a.vars = vars ∧ vars.lookup a.name = some a.slot := by
  match args with
  | [] => cases h
  | arg :: rest =>
    rcases mem_append.mp h with h | h
    · exact Expr.lookup_of_mem_argAccesses rest h
    · exact arg.lookup_of_mem_accesses h

end

/-- Variables are in slots of their names, and no two of them share one. -/
structure Variables.Sound (slots : SlotKind → List Slot) (vars : Variables) : Prop where
  owned : ∀ b ∈ vars, Owned slots b.1 b.2
  distinct : (vars.map Prod.snd).Nodup

/-- An `Access` is to the innermost variable of its name, among sound ones. -/
structure Access.Sound (slots : SlotKind → List Slot) (a : Access) : Prop where
  vars : Variables.Sound slots a.vars
  lookup_eq : a.vars.lookup a.name = some a.slot

/-- The variables in scope are sound, and so were those at every access. -/
structure Survey.Sound (params statics : List Slot) (x : Survey) : Prop where
  vars : Variables.Sound (slotsByKind params x.locals statics) x.vars
  accesses : ∀ a ∈ x.accesses, a.Sound (slotsByKind params x.locals statics)

section Growth

variable {params locals locals' statics : List Slot}

theorem Variables.Sound.of_isPrefix (h : Variables.Sound (slotsByKind params locals statics) vars)
    (hlocals : locals <+: locals') : Variables.Sound (slotsByKind params locals' statics) vars :=
  ⟨fun b hb => (h.owned b hb).of_isPrefix hlocals, h.distinct⟩

theorem Access.Sound.of_isPrefix (h : a.Sound (slotsByKind params locals statics))
    (hlocals : locals <+: locals') : a.Sound (slotsByKind params locals' statics) :=
  ⟨h.vars.of_isPrefix hlocals, h.lookup_eq⟩

end Growth

/-- A `Sound` access is to a variable of its name. -/
theorem Access.Sound.owned (h : a.Sound slots) : Owned slots a.name a.slot := by
  obtain ⟨before, after, hvars, -⟩ := List.lookup_eq_some_iff.mp h.lookup_eq
  exact h.vars.owned (a.name, a.slot) (hvars ▸ mem_append_right _ mem_cons_self)

namespace Survey.Sound

variable {params statics : List Slot} {x : Survey}

variable (h : x.Sound params statics)
include h

/-- Accesses to variables in scope keep a walk sound. -/
theorem extend {accesses : List Access}
    (haccesses : ∀ a ∈ accesses, a.vars = x.vars ∧ x.vars.lookup a.name = some a.slot) :
    Survey.Sound params statics { x with accesses := x.accesses ++ accesses } := by
  refine ⟨h.vars, forall_mem_append.mpr ⟨h.accesses, fun a ha => ?_⟩⟩
  obtain ⟨hvars, hlookup⟩ := haccesses a ha
  exact ⟨hvars ▸ h.vars, hvars ▸ hlookup⟩

theorem visit (e : Expr) : (x.visit e).Sound params statics :=
  h.extend fun _ ha => e.lookup_of_mem_accesses ha

theorem write (name : String) : (x.write name).Sound params statics :=
  h.extend fun _ ha => lookup_of_mem_access ha

/-- The next number is that of no variable in scope. -/
theorem declare (name : String) (ty : ParamType) : (x.declare name ty).Sound params statics := by
  have hmore : x.locals <+: x.locals ++ [⟨name, ty⟩] := prefix_append _ _
  have hvars := h.vars.of_isPrefix hmore
  refine ⟨⟨forall_mem_cons.mpr ⟨?_, hvars.owned⟩, nodup_cons.mpr ⟨?_, hvars.distinct⟩⟩,
    fun a ha => (h.accesses a ha).of_isPrefix hmore⟩
  · show (x.locals ++ [⟨name, ty⟩])[x.locals.length]?.map Slot.name = some name
    rw [getElem?_concat_length]
    rfl
  · intro hmem
    obtain ⟨b, hb, hslot⟩ := mem_map.mp hmem
    have hlt := (h.vars.owned b hb).lt
    rw [hslot] at hlt
    exact Nat.lt_irrefl _ hlt

/-- After a block its accesses stay, and the variables from before it are still there. -/
theorem leaveTo {before : Survey} (hbefore : before.Sound params statics)
    (hlocals : before.locals <+: x.locals) : (x.leaveTo before).Sound params statics :=
  ⟨hbefore.vars.of_isPrefix hlocals, h.accesses⟩

end Survey.Sound

mutual

/-- `survey` of a statement keeps a walk `Sound`. -/
theorem Stmt.sound_survey {params statics : List Slot} (s : Stmt) {x : Survey}
    (h : x.Sound params statics) : (s.survey x).Sound params statics := by
  match s with
  | .expr e _ | .throw e _ | .return (some e) _ => exact h.visit e
  | .declare id _ none _ _ => exact h.declare id.name _
  | .declare id _ (some value) _ _ => exact ((h.visit value).declare id.name _).write id.name
  | .break _ | .continue _ | .other _ _ | .return none _ => exact h
  | .block body => exact body.sound_survey h
  | .if condition thenBranch none _ => exact thenBranch.sound_survey (h.visit condition)
  | .if condition thenBranch (some branch) _ =>
    exact branch.sound_survey (thenBranch.sound_survey (h.visit condition))
  | .while condition body _ => exact body.sound_survey (h.visit condition)
  | .try body none none _ => exact body.sound_survey h
  | .try body (some clause) none _ => exact clause.sound_survey (body.sound_survey h)
  | .try body none (some last) _ => exact last.sound_survey (body.sound_survey h)
  | .try body (some clause) (some last) _ =>
    exact last.sound_survey (clause.sound_survey (body.sound_survey h))

theorem Stmt.sound_surveyAll {params statics : List Slot} (ss : List Stmt) {x : Survey}
    (h : x.Sound params statics) : (Stmt.surveyAll ss x).Sound params statics := by
  match ss with
  | [] => exact h
  | s :: rest => exact Stmt.sound_surveyAll rest (s.sound_survey h)

theorem Block.sound_survey {params statics : List Slot} (b : Block) {x : Survey}
    (h : x.Sound params statics) : (b.survey x).Sound params statics := by
  match b with
  | ⟨ss, _⟩ =>
    refine (Stmt.sound_surveyAll ss h).leaveTo h ?_
    rw [Stmt.locals_surveyAll]
    exact prefix_append _ _

theorem CatchClause.sound_survey {params statics : List Slot} (c : CatchClause) {x : Survey}
    (h : x.Sound params statics) : (c.survey x).Sound params statics := by
  match c with
  | ⟨none, body, _⟩ =>
    refine (body.sound_survey h).leaveTo h ?_
    rw [Block.locals_survey]
    exact prefix_append _ _
  | ⟨some id, body, _⟩ =>
    refine (body.sound_survey ((h.declare id.name .any).write id.name)).leaveTo h ?_
    rw [Block.locals_survey, Survey.locals_write, Survey.locals_declare, append_assoc]
    exact prefix_append _ _

end

/-! ## Functions -/

variable {statics : List Slot}

/-- Variables that are `numbered` in order have their own slots. -/
theorem sound_numbered (h : (slots kind).map Slot.name = names) :
    Variables.Sound slots (numbered kind names) := by
  refine ⟨fun b hb => ?_, ?_⟩
  · obtain ⟨⟨name, index⟩, hmem, rfl⟩ := mem_map.mp hb
    have hname : names[index]? = some name := mem_zipIdx_iff_getElem?.mp hmem
    rw [← h, getElem?_map] at hname
    exact hname
  · have hslots : (numbered kind names).map Prod.snd =
        (names.zipIdx.map Prod.snd).map (kind, ·) := by
      rw [numbered, map_map, map_map]
      rfl
    have hnumbers : (names.zipIdx.map Prod.snd).Nodup := by
      rw [zipIdx_map_snd]
      exact nodup_range' _
    rw [hslots]
    exact hnumbers.map fun i j hij => (Prod.mk.inj hij).2

theorem kind_of_mem_numbered : ∀ b ∈ numbered kind names, b.2.1 = kind := by
  intro b hb
  obtain ⟨_, -, rfl⟩ := mem_map.mp hb
  rfl

/-- At the start of a function its parameters and the static variables are in scope. -/
theorem sound_start (h : statics.map Slot.name = p.statics.map (·.id.name)) (params : List Param) :
    Survey.Sound (slotsOf params) statics
      ⟨(numbered .argument (params.map (·.id.name))).reverse ++ p.staticVariables, [], []⟩ := by
  have hparams : Variables.Sound (slotsByKind (slotsOf params) [] statics)
      (numbered .argument (params.map (·.id.name))) :=
    sound_numbered (by simp [slotsByKind, slotsOf])
  have hstatics : Variables.Sound (slotsByKind (slotsOf params) [] statics) p.staticVariables :=
    sound_numbered h
  refine ⟨⟨forall_mem_append.mpr ⟨fun b hb => ?_, hstatics.owned⟩, ?_⟩, forall_mem_nil _⟩
  · exact hparams.owned b (mem_reverse.mp hb)
  · rw [map_append, map_reverse, nodup_append, nodup_reverse]
    refine ⟨hparams.distinct, hstatics.distinct, ?_⟩
    -- a parameter is no static variable
    rintro slot hslot slot' hslot' rfl
    obtain ⟨b, hb, rfl⟩ := mem_map.mp (mem_reverse.mp hslot)
    obtain ⟨b', hb', heq⟩ := mem_map.mp hslot'
    have hkind := kind_of_mem_numbered b hb
    rw [← heq, kind_of_mem_numbered b' hb'] at hkind
    cases hkind

/-- The walk through a function is `Sound`. -/
theorem FunctionDecl.sound_survey (h : statics.map Slot.name = p.statics.map (·.id.name))
    (decl : FunctionDecl) :
    (decl.survey p.staticVariables).Sound (slotsOf decl.params) statics := by
  unfold FunctionDecl.survey
  cases decl.body with
  | none => exact sound_start h decl.params
  | some body => exact body.sound_survey (sound_start h decl.params)

/-- The local variables of a walk are those that the function declares. -/
theorem FunctionDecl.locals_survey (decl : FunctionDecl) (vars : Variables) :
    (decl.survey vars).locals = decl.declared := by
  unfold FunctionDecl.survey FunctionDecl.declared
  cases decl.body with
  | none => rfl
  | some body => exact body.locals_survey _

/-- The walk through the values of static variables is sound. -/
theorem Program.sound_staticSurvey (h : statics.map Slot.name = p.statics.map (·.id.name)) :
    p.staticSurvey.Sound [] statics := by
  refine List.foldlRecOn p.statics _ (sound_start h []) fun x hx decl _ => ?_
  unfold StaticDecl.survey
  cases decl.init with
  | none => exact hx
  | some value => exact (hx.visit value).write decl.id.name

/-- The values of static variables declare nothing. -/
theorem Program.locals_staticSurvey (p : Program) : p.staticSurvey.locals = [] := by
  refine List.foldlRecOn p.statics _ (motive := fun x : Survey => x.locals = []) rfl ?_
  intro x hx decl _
  unfold StaticDecl.survey
  cases decl.init with
  | none => exact hx
  | some value => exact hx

end ContractScript
