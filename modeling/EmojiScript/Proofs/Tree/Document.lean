import EmojiScript.Command
import EmojiScript.Proofs.Json.Reader
import EmojiScript.Tree.Document

namespace EmojiScript

/-!
# Reading trees from JSON

The document of a tree holds all of the tree: the form of every node, and the kind, the text and the
place of every token.  It is read by the names of its fields, and the tree that was written is found
again, whatever characters the texts of its tokens have.  So is the tree of both layouts of the
document, and of what is shown for it.

* `Token.ofJson?`, `Node.ofJson?` — from documents to trees.
* `Node.ofJson?_eq_some_iff` — the document of a tree, and no other, is read as the tree.
* `Node.read_toJson` — the texts of trees.
-/

/-! ### Tokens -/

/-- The token that a document shows. -/
def Token.ofJson? : Json → Option Token
  | .object [("kind", .string kind), ("text", .string text), ("position", .number position),
      ("line", .number line)] =>
    (Kind.ofLabel? kind).map fun kind => ⟨kind, text, ⟨position, line⟩⟩
  | _ => none

@[simp] theorem Token.ofJson?_toJson (token : Token) : ofJson? token.toJson = some token := by
  simp [ofJson?, toJson, line]

/-- The label of a kind names no other. -/
theorem Kind.label_of_ofLabel? {label : String} {kind : Kind} (h : ofLabel? label = some kind) :
    kind.label = label := by
  simpa using List.find?_some h

theorem Token.toJson_of_ofJson? {json : Json} {token : Token} (h : ofJson? json = some token) :
    token.toJson = json := by
  unfold ofJson? at h
  split at h
  next =>
    obtain ⟨kind, hkind, rfl⟩ := Option.map_eq_some_iff.mp h
    rw [toJson, Kind.label_of_ofLabel? hkind]
    rfl
  next => cases h

/-- The form of a leaf with this name. -/
def Leaf.ofLabel? : String → Option Leaf
  | "Number" => some .number
  | "Str" => some .text
  | "Emoji" => some .emoji
  | "Variable" => some .word
  | _ => none

theorem Leaf.label_of_ofLabel? {label : String} {form : Leaf} (h : ofLabel? label = some form) :
    form.label = label := by
  unfold ofLabel? at h
  split at h <;> cases h <;> rfl

/-! ### Nodes -/

namespace Node

/-- The node with two parts that is named by its operation. -/
def ofBinary? (op : String) (operator : Token) (left right : Node) : Option Node :=
  match op with
  | "Add" => some (formula .add operator left right)
  | "Sub" => some (formula .sub operator left right)
  | "Assign" => some (assign operator left right)
  | "AliasDefine" => some (defineAlias operator left right)
  | _ => none

/-- The node with one part that is named by its operation. -/
def ofUnary? (op : String) (operator : Token) (operand : Node) : Option Node :=
  match op with
  | "Print" => some (print operator operand)
  | "EjPrint" => some (printAlias operator operand)
  | _ => none

mutual

/-- The tree that a document shows. -/
def ofJson? : Json → Option Node
  | .object [("Program", .array statements)] => (ofJsons? statements).map program
  | .object [("Binary", .object [("op", .string op), ("operator", operator), ("left", left),
      ("right", right)])] => do
    let operator ← Token.ofJson? operator
    let left ← ofJson? left
    let right ← ofJson? right
    ofBinary? op operator left right
  | .object [("Unary", .object [("op", .string op), ("operator", operator),
      ("operand", operand)])] => do
    let operator ← Token.ofJson? operator
    let operand ← ofJson? operand
    ofUnary? op operator operand
  | .object [(label, token)] => do
    let form ← Leaf.ofLabel? label
    let token ← Token.ofJson? token
    return leaf form token
  | _ => none

/-- The trees that documents show. -/
def ofJsons? : List Json → Option (List Node)
  | [] => some []
  | statement :: rest => do
    let statement ← ofJson? statement
    let rest ← ofJsons? rest
    return statement :: rest

end

theorem ofJson?_leaf (form : Leaf) (token : Token) :
    ofJson? (leaf form token).toJson = some (leaf form token) := by
  cases form <;> simp [toJson, Leaf.label, ofJson?, Leaf.ofLabel?]

theorem ofJson?_binaryJson {left right : Node} (hleft : ofJson? left.toJson = some left)
    (hright : ofJson? right.toJson = some right) (op : String) (operator : Token) :
    ofJson? (binaryJson op operator left.toJson right.toJson) =
      ofBinary? op operator left right := by
  simp [binaryJson, ofJson?, hleft, hright]

theorem ofJson?_unaryJson {operand : Node} (h : ofJson? operand.toJson = some operand)
    (op : String) (operator : Token) :
    ofJson? (unaryJson op operator operand.toJson) = ofUnary? op operator operand := by
  simp [unaryJson, ofJson?, h]

theorem ofJsons?_toJsons {statements : List Node}
    (h : ∀ statement ∈ statements, ofJson? statement.toJson = some statement) :
    ofJsons? (toJsons statements) = some statements := by
  induction statements with
  | nil => rfl
  | cons statement rest ih =>
    obtain ⟨hstatement, hrest⟩ := List.forall_mem_cons.mp h
    simp [toJsons, ofJsons?, hstatement, ih hrest]

/-- **The tree that was written** is found again in its document. -/
theorem ofJson?_toJson (node : Node) : ofJson? node.toJson = some node := by
  induction node with
  | leaf form token => exact ofJson?_leaf form token
  | formula op operator left right ihleft ihright =>
    rw [toJson, ofJson?_binaryJson ihleft ihright]
    cases op <;> rfl
  | assign operator target value ihtarget ihvalue =>
    rw [toJson, ofJson?_binaryJson ihtarget ihvalue]
    rfl
  | defineAlias operator key shown ihkey ihshown =>
    rw [toJson, ofJson?_binaryJson ihkey ihshown]
    rfl
  | print operator operand ih =>
    rw [toJson, ofJson?_unaryJson ih]
    rfl
  | printAlias operator operand ih =>
    rw [toJson, ofJson?_unaryJson ih]
    rfl
  | program statements ih => simp [toJson, ofJson?, ofJsons?_toJsons ih]

/-! ### Documents of trees -/

theorem toJson_of_ofBinary? {op : String} {operator : Token} {left right node : Node}
    (h : ofBinary? op operator left right = some node) :
    node.toJson = binaryJson op operator left.toJson right.toJson := by
  unfold ofBinary? at h
  split at h <;> cases h <;> rfl

theorem toJson_of_ofUnary? {op : String} {operator : Token} {operand node : Node}
    (h : ofUnary? op operator operand = some node) :
    node.toJson = unaryJson op operator operand.toJson := by
  unfold ofUnary? at h
  split at h <;> cases h <;> rfl

/-- A document that is read as a tree is the document of this tree. -/
theorem toJson_of_ofJson? (json : Json) :
    ∀ node, ofJson? json = some node → node.toJson = json := by
  refine ofJson?.induct (fun json => ∀ node, ofJson? json = some node → node.toJson = json)
    (fun jsons => ∀ nodes, ofJsons? jsons = some nodes → toJsons nodes = jsons)
    ?program ?binary ?unary ?leaf ?other ?none ?more json
  case program =>
    intro statements ih node h
    rw [ofJson?] at h
    obtain ⟨nodes, hnodes, rfl⟩ := Option.map_eq_some_iff.mp h
    rw [toJson, ih nodes hnodes]
  case binary =>
    intro op operator left right ihleft ihright node h
    simp only [ofJson?, Option.bind_eq_bind, Option.bind_eq_some_iff] at h
    obtain ⟨token, htoken, leftNode, hleft, rightNode, hright, hnode⟩ := h
    rw [toJson_of_ofBinary? hnode, ihleft _ hleft, ihright _ hright, binaryJson,
      Token.toJson_of_ofJson? htoken]
  case unary =>
    intro op operator operand ih node h
    simp only [ofJson?, Option.bind_eq_bind, Option.bind_eq_some_iff] at h
    obtain ⟨token, htoken, operandNode, hoperand, hnode⟩ := h
    rw [toJson_of_ofUnary? hnode, ih _ hoperand, unaryJson, Token.toJson_of_ofJson? htoken]
  case leaf =>
    -- the single field has none of the three shapes that are tried before
    intro label json hprogram hbinary hunary node h
    rw [ofJson?] at h
    · simp only [Option.bind_eq_bind, Option.bind_eq_some_iff] at h
      obtain ⟨form, hform, token, htoken, hnode⟩ := h
      obtain rfl := Option.some.inj hnode
      rw [toJson, Leaf.label_of_ofLabel? hform, Token.toJson_of_ofJson? htoken]
    all_goals assumption
  case other =>
    intro json hprogram hbinary hunary hleaf node h
    rw [ofJson?] at h
    · cases h
    all_goals assumption
  case none =>
    intro nodes h
    obtain rfl := Option.some.inj h
    rfl
  case more =>
    intro statement rest ihstatement ihrest nodes h
    simp only [ofJsons?, Option.bind_eq_bind, Option.bind_eq_some_iff] at h
    obtain ⟨node, hnode, further, hfurther, heq⟩ := h
    obtain rfl := Option.some.inj heq
    rw [toJsons, ihstatement _ hnode, ihrest _ hfurther]

theorem ofJson?_eq_some_iff {json : Json} {node : Node} :
    ofJson? json = some node ↔ json = node.toJson := by
  constructor
  · exact fun h => (toJson_of_ofJson? json node h).symm
  · rintro rfl
    exact ofJson?_toJson node

/-! ### Texts -/

/-- A text is read as one tree at most. -/
theorem eq_of_read {node other : Node} {text : String} (h : Json.read text = some node.toJson)
    (hother : Json.read text = some other.toJson) : node = other := by
  have hjson : node.toJson = other.toJson := Option.some.inj (h.symm.trans hother)
  have hnode := node.ofJson?_toJson
  rw [hjson, other.ofJson?_toJson] at hnode
  exact (Option.some.inj hnode).symm

theorem read_rendering (node : Node) :
    Json.read (Command.rendering true node) = some node.toJson :=
  (Json.read_append_newline _).trans node.toJson.read_pretty

/-- **The texts of a tree say all of it.** Both layouts of its document, and what is shown for it,
are read back as the document, and this document and no other is read as the tree.  So trees with
one text are one tree, places included. -/
theorem read_toJson (node : Node) :
    Json.read node.toJson.compact = some node.toJson ∧
      Json.read node.toJson.pretty = some node.toJson ∧
      Json.read (Command.rendering true node) = some node.toJson ∧
      (∀ json, ofJson? json = some node ↔ json = node.toJson) ∧
      ∀ other : Node,
        (node.toJson.compact = other.toJson.compact ↔ node = other) ∧
        (node.toJson.pretty = other.toJson.pretty ↔ node = other) ∧
        (Command.rendering true node = Command.rendering true other ↔ node = other) := by
  have hcompact := node.toJson.read_compact
  have hpretty := node.toJson.read_pretty
  have hrendering := node.read_rendering
  refine ⟨hcompact, hpretty, hrendering, fun _ => ofJson?_eq_some_iff, fun other => ⟨?_, ?_, ?_⟩⟩
  · exact ⟨fun heq => eq_of_read hcompact (heq ▸ other.toJson.read_compact), fun heq => heq ▸ rfl⟩
  · exact ⟨fun heq => eq_of_read hpretty (heq ▸ other.toJson.read_pretty), fun heq => heq ▸ rfl⟩
  · exact ⟨fun heq => eq_of_read hrendering (heq ▸ other.read_rendering), fun heq => heq ▸ rfl⟩

end Node

end EmojiScript
