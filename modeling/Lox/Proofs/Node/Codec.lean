import Lox.Node.Codec
import Lox.Proofs.Json.RoundTrip
import Lox.Proofs.Node.Parsed

/-!
# Loading what was written

* `Node.ofJson_toJson`: a tree that can be written is loaded back from its JSON value.
* `Node.IsStatement.isWritable` and `Node.IsStatement.readable`: the tree of a program text can be
  written, and its JSON value can be read.
-/

namespace Lox

/-! ### Parts of objects -/

@[simp] theorem ok_bind {ε α β : Type} (a : α) (f : α → Except ε β) :
    (Except.ok a >>= f) = f a :=
  rfl

@[simp] theorem Json.member?_nil (name : Text) : Json.member? [] name = none := rfl

/-- A member is found by its name, the first of this name first. -/
@[simp] theorem Json.member?_cons (name other : Text) (v : Json) (members : List (Text × Json)) :
    Json.member? ((other, v) :: members) name =
      if name = other then some v else Json.member? members name := by
  by_cases h : name = other
  · simp [Json.member?, h]
  · have hne : (name == other) = false := by simpa using h
    simp [Json.member?, List.lookup_cons, hne, h]

/-- The words in a stored tree can be read. -/
@[simp] theorem Json.readable_word (s : String) : (Json.word s).Readable := .str rfl

namespace Node.Field

variable (f : Field) (fields : List Field) (name : Text)

/-- A field is found by its name, the first of this name first. -/
@[simp] theorem get_cons : get (f :: fields) name = if f.name = name then .ok f else get fields name := by
  by_cases h : f.name = name <;> simp [get, h]

@[simp] theorem part_cons :
    part (f :: fields) name = if f.name = name then f.tree else part fields name := by
  by_cases h : f.name = name <;> simp [part, h]

@[simp] theorem partOrNull_cons :
    partOrNull (f :: fields) name = if f.name = name then f.tree else partOrNull fields name := by
  by_cases h : f.name = name <;> simp [partOrNull, h]

@[simp] theorem token_cons :
    token (f :: fields) name = if f.name = name then Token.ofJson f.value else token fields name := by
  by_cases h : f.name = name <;> simp [token, h]

@[simp] theorem tokens_cons : tokens (f :: fields) name =
    if f.name = name then Token.listOfJson f.value else tokens fields name := by
  by_cases h : f.name = name <;> simp [tokens, h]

/-- The trees of a member that is a list. -/
@[simp] theorem parts_cons {items : List Json} {trees : List Node}
    (h : f.value = .arr items) (ht : f.tree = .ok (.list trees)) :
    parts (f :: fields) name = if f.name = name then .ok trees else parts fields name := by
  by_cases hname : f.name = name
  · simp [parts, hname, h, ht]
    rfl
  · simp [parts, hname]

@[simp] theorem parts_cons_of_ne (h : f.name ≠ name) : parts (f :: fields) name = parts fields name := by
  simp [parts, h]

end Node.Field

namespace Token

/-- A token is loaded back. -/
@[simp] theorem ofJson_toJson (t : Token) : ofJson t.toJson = .ok t := by
  obtain ⟨kind, lexeme, literal, line⟩ := t
  simp [toJson, ofJson, kindOfJson, Kind.ofName?_name, Text.string?]

/-- Tokens are loaded back from a list of them. -/
theorem ofJsonAll_map_toJson (ts : List Token) : ofJsonAll (ts.map toJson) = .ok ts := by
  induction ts with
  | nil => rfl
  | cons t ts ih => rw [List.map_cons, ofJsonAll, ofJson_toJson, ih]

end Token

namespace Node

mutual

/-- **A tree that can be written is loaded back.** -/
theorem ofJson_toJson : ∀ n : Node, n.isWritable → ofJson n.toJson = .ok n
  | .null, _ | .bool _, _ | .number _, _ | .text _, _ | .nil, _ => rfl
  | .data _, h => absurd h (by simp [isWritable])
  | .token t, _ => by
      have h := Token.ofJson_toJson t
      rw [Token.toJson] at h
      simp [toJson, Token.toJson, ofJson, h]
  | .list items, h => by
      rw [toJson, ofJson, ofJsonAll_toJsonAll items h]
  | .binary l o r, h => by
      simp only [isWritable, Bool.and_eq_true] at h
      simp [toJson, ofJson, fieldsOf, ofFields, ofJson_toJson l h.1, ofJson_toJson r h.2]
  | .logical l o r, h => by
      simp only [isWritable, Bool.and_eq_true] at h
      simp [toJson, ofJson, fieldsOf, ofFields, ofJson_toJson l h.1, ofJson_toJson r h.2]
  | .grouping a, h | .literal a, h | .expression a, h | .print a, h => by
      simp [toJson, ofJson, fieldsOf, ofFields, ofJson_toJson a h]
  | .unary _ a, h | .assign _ a, h | .declare _ a, h | .returns _ a, h => by
      simp [toJson, ofJson, fieldsOf, ofFields, ofJson_toJson a h]
  | .reference _, _ => by
      simp [toJson, ofJson, fieldsOf, ofFields]
  | .call c p as, h => by
      simp only [isWritable, Bool.and_eq_true] at h
      simp [toJson, ofJson, fieldsOf, ofFields, ofJson_toJson c h.1, ofJsonAll_toJsonAll as h.2]
  | .block as, h => by
      simp [toJson, ofJson, fieldsOf, ofFields, ofJsonAll_toJsonAll as h]
  | .branch c t e, h => by
      simp only [isWritable, Bool.and_eq_true] at h
      simp [toJson, ofJson, fieldsOf, ofFields, ofJson_toJson c h.1.1, ofJson_toJson t h.1.2,
        ofJson_toJson e h.2]
  | .loop c b, h => by
      simp only [isWritable, Bool.and_eq_true] at h
      simp [toJson, ofJson, fieldsOf, ofFields, ofJson_toJson c h.1, ofJson_toJson b h.2]
  | .function n ps b, h => by
      simp [toJson, ofJson, fieldsOf, ofFields, Token.listOfJson, Token.ofJsonAll_map_toJson,
        ofJsonAll_toJsonAll b h]

/-- Trees are, by recursion on the list. -/
theorem ofJsonAll_toJsonAll : ∀ ns : List Node, allWritable ns → ofJsonAll (toJsonAll ns) = .ok ns
  | [], _ => rfl
  | n :: ns, h => by
      simp only [allWritable, Bool.and_eq_true] at h
      rw [toJsonAll, ofJsonAll, ofJson_toJson n h.1, ofJsonAll_toJsonAll ns h.2]

end

/-! ### The trees of program texts -/

theorem allWritable_iff {ns : List Node} : allWritable ns ↔ ∀ n ∈ ns, n.isWritable := by
  induction ns with
  | nil => simp [allWritable]
  | cons n ns ih => simp [allWritable, ih]

theorem toJsonAll_eq_map (ns : List Node) : toJsonAll ns = ns.map toJson := by
  induction ns with
  | nil => rfl
  | cons n ns ih => rw [toJsonAll, ih, List.map_cons]

section

variable {T : Token → Prop} {n : Node}

theorem IsLiteral.isWritable (h : IsLiteral n) : n.isWritable := by
  cases h <;> rfl

/-- Expressions of a text can be written, by induction on them. -/
theorem IsExpression.isWritable (h : IsExpression T n) : n.isWritable := by
  induction h with
  | literal h => exact h.isWritable
  | reference | grouping _ ih | unary _ _ _ ih | assign _ _ _ ih => simp_all [Node.isWritable]
  | logical _ _ _ _ ihl ihr | binary _ _ _ _ ihl ihr => simp [Node.isWritable, ihl, ihr]
  | call _ _ _ ih ihs => simp [Node.isWritable, ih, allWritable_iff.mpr ihs]

/-- The tree of a program text can be written. -/
theorem IsStatement.isWritable {inFunction : Bool} (h : IsStatement T inFunction n) :
    n.isWritable := by
  induction h with
  | expression h | print h | declareValue _ _ h | returns _ h =>
      exact h.isWritable
  | declare | returnNothing => rfl
  | block _ ih | function _ _ _ _ ih => exact allWritable_iff.mpr ih
  | branch hc _ ih | loop hc _ ih => simp [Node.isWritable, hc.isWritable, ih]
  | branchElse hc _ _ ih ih' => simp [Node.isWritable, hc.isWritable, ih, ih']

theorem IsLiteral.readable (h : IsLiteral n) : n.toJson.Readable := by
  cases h with
  | text s => exact .str rfl
  | number text => exact .float (Decimal.isNaN_toNumber _ _)
  | bool b => exact .bool b
  | nil => exact .obj (by simp) (by simp) (by simp)

/-- The values of a list of trees can be read if all its trees' can. -/
theorem readable_arr {ns : List Node} (h : ∀ n ∈ ns, n.toJson.Readable) :
    (Json.arr (toJsonAll ns)).Readable := by
  refine .arr ?_
  rw [toJsonAll_eq_map]
  simpa using h

/-- What is written of them can be read, if their tokens can. -/
theorem IsExpression.readable (hT : ∀ t, T t → t.toJson.Readable) (h : IsExpression T n) :
    n.toJson.Readable := by
  induction h with
  | literal h =>
      exact .obj (by simp) (by simp) (by simp [h.readable])
  | grouping _ ih => exact .obj (by simp) (by simp) (by simp [ih])
  | reference hn => exact .obj (by simp) (by simp) (by simp [hT _ hn])
  | assign ho _ _ ih | unary ho _ _ ih =>
      exact .obj (by simp) (by simp) (by simp [hT _ ho, ih])
  | logical _ ho _ _ ihl ihr | binary _ ho _ _ ihl ihr =>
      exact .obj (by simp) (by simp) (by simp [hT _ ho, ihl, ihr])
  | call _ hp _ ih ihs =>
      exact .obj (by simp) (by simp) (by simp [hT _ hp, ih, readable_arr ihs])

/-- The value of the tree of a program text can be read if those of its tokens can. -/
theorem IsStatement.readable (hT : ∀ t, T t → t.toJson.Readable) {inFunction : Bool}
    (h : IsStatement T inFunction n) : n.toJson.Readable := by
  induction h with
  | expression h | print h =>
      exact .obj (by simp) (by simp) (by simp [h.readable hT])
  | declare ho | returnNothing ho =>
      exact .obj (by simp) (by simp) (by simp [hT _ ho, toJson, Json.Readable.null])
  | declareValue ho _ h | returns ho h =>
      exact .obj (by simp) (by simp) (by simp [hT _ ho, h.readable hT])
  | block _ ih => exact .obj (by simp) (by simp) (by simp [readable_arr ih])
  | branch hc _ ih =>
      exact .obj (by simp) (by simp)
        (by simp [hc.readable hT, ih, toJson, Json.Readable.null])
  | loop hc _ ih => exact .obj (by simp) (by simp) (by simp [hc.readable hT, ih])
  | branchElse hc _ _ ih ih' =>
      exact .obj (by simp) (by simp) (by simp [hc.readable hT, ih, ih'])
  | function hn _ hp _ ih =>
      have hparams : ∀ v ∈ List.map Token.toJson _, v.Readable :=
        List.forall_mem_map.mpr fun p hm => hT p (hp p hm).1
      exact .obj (by simp) (by simp)
        (by simp [hT _ hn, Json.Readable.arr hparams, readable_arr ih])

end

end Node

/-- The value of a token that was cut from a text can be read, unless the text has too many lines. -/
theorem Token.CutWithin.readable {lines : ℕ} (hlines : lines < 10 ^ integerDigitLimit) {t : Token}
    (h : t.CutWithin lines) : t.toJson.Readable := by
  obtain ⟨kind, text, line, -, hline, rfl⟩ := h
  have hliteral : (Lexer.literalOf kind text).Readable := by
    unfold Lexer.literalOf
    split
    · exact .float (Decimal.isNaN_toNumber _ _)
    · exact .str rfl
    · exact .str rfl
    · exact .null
  have hint : (Json.int line).Readable := .int (by simpa using hline.trans_lt hlines)
  exact .obj (by simp) (by simp) (by simp [Lexer.tokenOf, Token.ofText, hliteral, hint])

/-- **The statements of a program text are read and loaded back** from the text of their tree. -/
theorem Program.ofSource_loaded {source : String} {statements : List Node}
    (hsize : source.length + 1 < 10 ^ integerDigitLimit)
    (h : Program.ofSource source = .ok statements) (layout : Json.Layout) :
    Json.parse ((Node.list statements).toJson.render layout) = .ok (Node.list statements).toJson ∧
      Node.ofJson (Node.list statements).toJson = .ok (.list statements) := by
  have hall := Program.ofSource_eq_ok (T := Token.CutWithin (source.length + 1)) (fun _ ht => ht)
    (fun _ ht => ⟨_, ht⟩) h
  refine ⟨Json.parse_render ?_ layout, Node.ofJson_toJson _ ?_⟩
  · exact Node.readable_arr fun s hs => (hall s hs).readable fun t ht => ht.readable hsize
  · exact Node.allWritable_iff.mpr fun s hs => (hall s hs).isWritable

end Lox
