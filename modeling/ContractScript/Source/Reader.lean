import ContractScript.Json.Basic
import ContractScript.Source.Outline
import ContractScript.Text.Hex
import ContractScript.Text.Utf8

/-!
# Programs from JSON

A program without a text is given as a JSON outline: an object for each node, with its kind under
`k` and its parts under names. Parts are laid out before the whole. A place that is given
explicitly replaces the one that the layout gives to a node.

- `Ty.ofJson?`, `Span.ofJson?`: types and places.
- `readExpr`, `readStmt`, `readItem`: nodes, up to a depth.
- `Program.ofJson?`: whole programs.
-/

namespace ContractScript

/-! ## Values -/

/-- The bytes of hexadecimal digits. -/
def bytesOfJson? (v : Json) : Option (List UInt8) := do
  match Hex.decode (Text.utf8 (← v.asString?)) with
  | .ok bytes => some bytes
  | .error _ => none

/-- A byte and how often it is repeated. -/
def fillOfJson? (v : Json) : Option (List UInt8) := do
  match ← v.asList? Json.asNat? with
  | [byte, count] => some (List.replicate count (UInt8.ofNat byte))
  | _ => none

/-- An integer, as a number or in decimal digits. -/
def integerOfJson? : Json → Option Int
  | .int value => some value
  | .string s => Text.integer? s.toList
  | _ => none

/-- A place: the file, the first line and column, the last line and column. -/
def Span.ofJson? (v : Json) : Option Span := do
  match ← v.asList? Json.asNat? with
  | [file, line, col, endLine, endCol] => some ⟨file, line, col, endLine, endCol⟩
  | _ => none

/-- The types that are given by a name alone. -/
def Ty.simpleNames : List (String × Ty) :=
  [("void", .void), ("boolean", .boolean), ("integer", .integer), ("string", .string),
   ("bytes", .byteString), ("hash160", .hash160), ("hash256", .hash256),
   ("publickey", .publicKey), ("signature", .signature), ("null", .null), ("any", .any)]

/-- A type up to a depth. -/
def readTy? : Nat → Json → Option Ty
  | 0, _ => none
  | fuel + 1, v =>
    match v with
    | .string name => Ty.simpleNames.lookup name
    | .array [.string "array", elem] => .array <$> readTy? fuel elem
    | .array [.string "map", key, value] => return .map (← readTy? fuel key) (← readTy? fuel value)
    | .array [.string "struct", .string name] => some (.struct name)
    | .array [.string "interop", .string name] => some (.interop name)
    | .array [.string "named", .string name] => some (.named name)
    | _ => none

/-- A type: a name, or an array of a constructor and its arguments. -/
def Ty.ofJson? (v : Json) : Option Ty :=
  readTy? (v.depth + 1) v

def BinaryOp.ofJson? (v : Json) : Option BinaryOp := do
  let s ← v.asString?
  all.find? (·.text == s)

def UnaryOp.ofJson? : Json → Option UnaryOp
  | .string "!" => some .not
  | .string "-" => some .neg
  | .string "+" => some .plus
  | .string "~" => some .bitNot
  | _ => none

/-! ## Expressions -/

/-- Reading of nodes: it takes lines for them, and fails on anything else. -/
abbrev Reading := OptionT Outline

/-- A value that must be there. -/
def Reading.need {α : Type} (o : Option α) : Reading α :=
  OptionT.mk (pure o)

open Reading

/-- The type under a name; a missing one is unknown. -/
def readType (v : Json) (name : String) : Reading Ty :=
  need (v.readD? Ty.ofJson? name .any)

/-- A place under a name. -/
def readPlace (v : Json) (name : String) : Reading (Option Span) :=
  need (v.readOption? Span.ofJson? name)

/-- The value of a literal of a kind. -/
def Literal.ofJson? (kind : String) (v : Json) : Option Literal :=
  match kind with
  | "int" => .int <$> v.read? integerOfJson? "v"
  | "bool" => .bool <$> v.read? Json.asBool? "v"
  | "str" => do
    let text ← v.read? Json.asString? "v"
    let times ← v.readD? Json.asNat? "times" 1
    return .string (String.join (List.replicate times text))
  | "bytes" =>
    match v.present? "fill" with
    | some fill => .bytes <$> fillOfJson? fill
    | none => .bytes <$> v.read? bytesOfJson? "v"
  | "null" => some .null
  | _ => none

/-- The literal with another type. -/
def Expr.withLiteralTy (ty : Ty) : Expr → Expr
  | .literal value _ span => .literal value ty span
  | e => e

/-- The same node with its name at another place. -/
def Expr.withNameSpan (span : Span) : Expr → Expr
  | .ident id ty s => .ident { id with span := span } ty s
  | .member object id ty s => .member object { id with span := span } ty s
  | e => e

/-- An `Expr` up to a depth. -/
def readExpr : Nat → Json → Reading Expr
  | 0, _ => failure
  | fuel + 1, v => do
    let part (name : String) : Reading Expr := do readExpr fuel (← need (v.present? name))
    let text (name : String) : Reading String := need (v.read? Json.asString? name)
    let args : Reading (List Expr) := do
      (← need (v.readD? Json.asArray? "args" [])).mapM (readExpr fuel)
    let ty ← readType v "ty"
    let e : Expr ←
      match ← text "k" with
      | "var" => Outline.var (← text "name") ty
      | "bin" => do
        let left ← part "l"
        let right ← part "r"
        Outline.binary left (← need (v.read? BinaryOp.ofJson? "op")) right ty
      | "un" => do
        let operand ← part "e"
        Outline.unary (← need (v.read? UnaryOp.ofJson? "op")) operand ty
      | "paren" => do Outline.paren (← part "e")
      | "assign" => do
        let target ← part "target"
        let value ← part "value"
        Outline.assign target (← need (v.readOption? BinaryOp.ofJson? "op")) value
      | "call" => do
        let callee ← part "callee"
        Outline.call callee (← args) ty
      | "callfn" => do
        let args ← args
        Outline.callNamed (← text "name") args ty
      | "member" => do
        let object ← part "obj"
        Outline.member object (← text "name") ty
      | "raw" => do Outline.otherExpr (← text "kind")
      | kind => do
        let e ← Outline.literal (← need (Literal.ofJson? kind v))
        pure (if (v.present? "ty").isSome then e.withLiteralTy ty else e)
    let e := ((← readPlace v "name_span").map e.withNameSpan).getD e
    return ((← readPlace v "span").map e.withSpan).getD e

/-- An `Expr` under a name. -/
def readOptionalExpr (v : Json) (name : String) : Reading (Option Expr) :=
  match v.present? name with
  | none => pure none
  | some e => some <$> readExpr (e.depth + 1) e

/-! ## Statements -/

/-- The same declaration with its name at another place. -/
def Stmt.withNameSpan (span : Span) : Stmt → Stmt
  | .declare id ty init isConst s => .declare { id with span := span } ty init isConst s
  | s => s

/-- A `Stmt` up to a depth. -/
def readStmt : Nat → Json → Reading Stmt
  | 0, _ => failure
  | fuel + 1, v => do
    let text (name : String) : Reading String := need (v.read? Json.asString? name)
    let expr (name : String) : Reading Expr := do
      need (← readOptionalExpr v name)
    let stmts (items : List Json) : Reading (List Stmt) := items.mapM (readStmt fuel)
    let body (v : Json) : Reading (List Stmt) := do
      stmts (← need (v.readD? Json.asArray? "body" []))
    let declare (isConst : Bool) : Reading Stmt := do
      let init ← readOptionalExpr v "init"
      Outline.declare (← text "name") (← readType v "ty") init isConst
    let s : Stmt ←
      match ← text "k" with
      | "expr" => do Outline.exprStmt (← expr "e")
      | "let" => declare false
      | "const" => declare true
      | "return" => do Outline.returnStmt (← readOptionalExpr v "v")
      | "throw" => do Outline.throwStmt (← expr "v")
      | "break" => Outline.breakStmt
      | "continue" => Outline.continueStmt
      | "block" => do pure (.block (← Outline.block (← body v)))
      | "if" => do
        let condition ← expr "cond"
        let thenBranch ← readStmt fuel (← need (v.present? "then"))
        let elseBranch ← (v.present? "else").mapM (readStmt fuel)
        Outline.ifStmt condition thenBranch elseBranch
      | "while" => do
        let condition ← expr "cond"
        Outline.whileStmt condition (← readStmt fuel (← need (v.present? "body")))
      | "try" => do
        let protectedBody ← body v
        let handler ← (v.present? "catch").mapM fun clause => do
          let stmts ← body clause
          return (← need (clause.readOption? Json.asString? "param"), stmts)
        let finalizer ← (v.present? "finally").mapM fun f => do stmts (← need f.asArray?)
        Outline.tryStmt protectedBody handler finalizer
      | "raw" => do Outline.otherStmt (← text "kind")
      | _ => failure
    let s := ((← readPlace v "name_span").map s.withNameSpan).getD s
    return ((← readPlace v "span").map s.withSpan).getD s

/-! ## Declarations -/

/-- Two parts and, if it is given, a place. -/
def tripleOfJson? {α β : Type} (f : Json → Option α) (g : Json → Option β) :
    Json → Option ((α × β) × Option Span)
  | .array [a, b] | .array [a, b, .null] => return ((← f a, ← g b), none)
  | .array [a, b, span] => return ((← f a, ← g b), some (← Span.ofJson? span))
  | _ => none

/-- Names and types of parameters, one by one or as a number of them with numbered names. -/
def paramsOfJson? (v : Json) : Option (List ((String × Ty) × Option Span)) :=
  match v.present? "params" with
  | none => some []
  | some (.array ps) => ps.mapM (tripleOfJson? Json.asString? Ty.ofJson?)
  | some p => do
    let stem ← p.readD? Json.asString? "prefix" "p"
    let ty ← p.readD? Ty.ofJson? "ty" .any
    let count ← p.read? Json.asNat? "count"
    return (List.range count).map fun i => ((stem ++ Text.decimalNat i, ty), none)

/-- Names and payloads of doc tags. -/
def tagsOfJson? (v : Json) : Option (List ((String × String) × Option Span)) :=
  v.readD? (Json.asList? (tripleOfJson? Json.asString? Json.asString?)) "annotations" []

/-- Put `Param`s at places that are given explicitly. -/
def placeParams (spans : List (Option Span)) (ps : List Param) : List Param :=
  (ps.zip spans).map fun (p, span) => { p with span := span.getD p.span }

/-- Put doc tags at places that are given explicitly. -/
def placeTags (spans : List (Option Span)) (tags : List DocTag) : List DocTag :=
  (tags.zip spans).map fun (t, span) => { t with span := span.getD t.span }

/-- Put a name at a place that is given explicitly. -/
def Ident.placedAt (span : Option Span) (id : Ident) : Ident :=
  { id with span := span.getD id.span }

/-- A function; without a body the host provides it. -/
def readFunction (v : Json) : Reading FunctionDecl := do
  let name ← need (v.read? Json.asString? "name")
  let ps ← need (paramsOfJson? v)
  let tags ← need (tagsOfJson? v)
  let returnType ← readType v "ret"
  let body ← (v.present? "body").mapM fun b => do
    (← need b.asArray?).mapM fun s => readStmt (s.depth + 1) s
  let decl : FunctionDecl ←
    match body with
    | some body => do
      let decl ← Outline.function name (ps.map (·.1)) returnType body
      let tags ← Outline.docTags (tags.map (·.1))
      pure { decl with tags := tags }
    | none => Outline.hostFunction name (ps.map (·.1)) returnType (tags.map (·.1))
  let bodySpan ← readPlace v "body_span"
  return { decl with
    id := decl.id.placedAt (← readPlace v "name_span")
    params := placeParams (ps.map (·.2)) decl.params
    tags := placeTags (tags.map (·.2)) decl.tags
    body := decl.body.map fun b => (bodySpan.map b.withSpan).getD b
    isExport := ← need (v.readD? Json.asBool? "export" decl.isExport)
    isSafe := ← need (v.readD? Json.asBool? "safe" false) }

/-- A member of an interface. -/
def readMember (v : Json) : Reading InterfaceMember := do
  let name ← need (v.read? Json.asString? "name")
  let ps ← need (paramsOfJson? v)
  let tags ← need (tagsOfJson? v)
  let ty ← readType v "ty"
  let member : InterfaceMember ←
    match ← need (v.read? Json.asString? "k") with
    | "method" => Outline.method name (ps.map (·.1)) ty (tags.map (·.1))
    | "prop" => Outline.property name ty (tags.map (·.1))
    | _ => failure
  return { member with
    params := placeParams (ps.map (·.2)) member.params
    tags := placeTags (tags.map (·.2)) member.tags
    span := (← readPlace v "span").getD member.span }

/-- A top-level `Item`. -/
def readItem (v : Json) : Reading Item := do
  let text (name : String) : Reading String := need (v.read? Json.asString? name)
  let nameSpan ← readPlace v "name_span"
  let item : Item ←
    match ← text "k" with
    | "fn" => do pure (.function (← readFunction v))
    | "const" => do
      let value ← need (← readOptionalExpr v "value")
      let decl ← Outline.const (← text "name") (← readType v "ty") value
      pure (.const { decl with id := decl.id.placedAt nameSpan })
    | "static" => do
      let init ← readOptionalExpr v "init"
      let decl ← Outline.static (← text "name") (← readType v "ty") init
      pure (.static { decl with id := decl.id.placedAt nameSpan })
    | "iface" => do
      let members ← (← need (v.readD? Json.asArray? "members" [])).mapM readMember
      let tags ← need (tagsOfJson? v)
      let decl ← Outline.interface (← text "name") (tags.map (·.1)) members
      pure (.interface { decl with tags := placeTags (tags.map (·.2)) decl.tags })
    | "declare" => do
      let decl ← Outline.object (← text "name") (← text "iface")
      let interfaceSpan ← readPlace v "iface_span"
      pure (.object { decl with
        id := decl.id.placedAt nameSpan
        interface := decl.interface.placedAt interfaceSpan })
    | "raw" => do Outline.otherItem (← text "kind")
    | _ => failure
  return ((← readPlace v "span").map item.withSpan).getD item

/-- A document: its number and its path. -/
def Document.ofJson? : Json → Option Document
  | .array [id, path] => return ⟨← id.asNat?, ← path.asString?⟩
  | _ => none

/-- A `Program`: its items, the document they are laid out in, and the documents that it lists. -/
def Program.ofJson? (v : Json) : Option Program := do
  let file ← v.readOption? Document.ofJson? "file"
  let cursor : Cursor := (file.map fun d => { file := d.id, path := d.path }).getD {}
  let reading : Reading Program := do
    let items ← (← need (v.readD? Json.asArray? "items" [])).mapM readItem
    Outline.program items
  let p ← (reading.run cursor).1
  return { p with files := ← v.readD? (Json.asList? Document.ofJson?) "files" p.files }

end ContractScript
