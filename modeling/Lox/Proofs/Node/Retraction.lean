import Lox.Proofs.Node.Codec

/-!
# Loading and writing again

Loading takes more than what is written, so writing a loaded tree gives another value in general.
But what is written is a fixed point: a loaded tree can always be written, and what is written is
loaded as the same tree.

* `Node.Loads P r`: if the reading `r` gives something, that is in `P`.  It goes through sequencing,
  so that the parts of a node can be followed in the order in which they are read.
* `Node.ofJson_loads`: whatever is loaded can be written, by induction on the JSON value.
* `Node.ofJson_retraction`: loading and writing is a retraction onto what is written, and programs are
  told apart by what is written of them.
-/

namespace Lox

namespace Node

variable {α β : Type}

/-- What the reading gives is in `P`. -/
def Loads (P : α → Prop) (r : Except LoadError α) : Prop := ∀ a, r = .ok a → P a

namespace Loads

variable {P : α → Prop} {Q : β → Prop}

theorem ok {a : α} (h : P a) : Loads P (.ok a) := by
  intro b hb
  cases hb
  exact h

theorem error (e : LoadError) : Loads P (.error e) := by
  intro a ha
  cases ha

theorem any (r : Except LoadError α) : Loads (fun _ => True) r := fun _ _ => trivial

/-- What the first reading gives is used in the second. -/
theorem bind {r : Except LoadError α} {f : α → Except LoadError β} (hr : Loads P r)
    (hf : ∀ a, P a → Loads Q (f a)) : Loads Q (r >>= f) := by
  cases r with
  | error e => exact error e
  | ok a => exact hf a (hr a rfl)

end Loads

/-! ### The parts of a node -/

/-- The members of an object that are trees can be written. -/
def Field.Writable (fields : List Field) : Prop :=
  ∀ f ∈ fields, Loads (fun n => n.isWritable = true) f.tree

namespace Field

variable {fields : List Field}

/-- A member that is a tree is one that can be written. -/
theorem Writable.get (h : Writable fields) (name : Text) :
    Loads (fun f => Loads (fun n => n.isWritable = true) f.tree) (Field.get fields name) := by
  rw [Field.get]
  split
  · rename_i f hf
    exact .ok (h f (List.mem_of_find?_eq_some hf))
  · exact .error _

theorem Writable.part (h : Writable fields) (name : Text) :
    Loads (fun n => n.isWritable = true) (Field.part fields name) :=
  (h.get name).bind fun _ hf => hf

theorem Writable.partOrNull (h : Writable fields) (name : Text) :
    Loads (fun n => n.isWritable = true) (Field.partOrNull fields name) := by
  rw [Field.partOrNull]
  split
  · rename_i f hf
    exact h f (List.mem_of_find?_eq_some hf)
  · exact .ok rfl

/-- Characters and names are texts, and texts can be written. -/
theorem allWritable_texts {γ : Type} (text : γ → Text) (items : List γ) :
    allWritable (items.map fun item => .text (text item)) = true := by
  rw [allWritable_iff]
  simp [isWritable]

/-- So are the trees of a list. -/
theorem Writable.parts (h : Writable fields) (name : Text) :
    Loads (fun ns => allWritable ns = true) (Field.parts fields name) := by
  refine (h.get name).bind fun f hf => ?_
  split
  · refine hf.bind fun n hn => ?_
    split
    · exact .ok hn
    · exact .error _
  · exact .ok (allWritable_texts _ _)
  · exact .ok (allWritable_texts _ _)
  · exact .error _

end Field

/-- A node whose parts can be written can be written; its tokens always can. -/
theorem ofFields_loads {fields : List Field} (h : Field.Writable fields) (name : Option Json) :
    Loads (fun n => n.isWritable = true) (ofFields name fields) := by
  have token : ∀ name, Loads (fun _ => True) (Field.token fields name) := fun _ => .any _
  -- one case for each name of a node, in the order of `ofFields`, and two without a node
  unfold ofFields
  split
  · refine (h.part _).bind fun l hl => (token _).bind fun o _ => (h.part _).bind fun r hr => .ok ?_
    rw [isWritable, hl, hr, Bool.and_self]
  · exact (h.part _).bind fun a ha => .ok ha
  · exact (h.part _).bind fun a ha => .ok ha
  · exact (token _).bind fun o _ => (h.part _).bind fun r hr => .ok hr
  · exact (token _).bind fun t _ => .ok rfl
  · exact (token _).bind fun t _ => (h.part _).bind fun v hv => .ok hv
  · refine (h.part _).bind fun l hl => (token _).bind fun o _ => (h.part _).bind fun r hr => .ok ?_
    rw [isWritable, hl, hr, Bool.and_self]
  · refine (h.part _).bind fun c hc => (token _).bind fun p _ => (h.parts _).bind fun as has => .ok ?_
    rw [isWritable, hc, has, Bool.and_self]
  · exact (h.part _).bind fun a ha => .ok ha
  · exact (h.part _).bind fun a ha => .ok ha
  · exact (token _).bind fun t _ => (h.partOrNull _).bind fun v hv => .ok hv
  · exact (h.parts _).bind fun as has => .ok has
  · refine (h.part _).bind fun c hc => (h.part _).bind fun t ht => (h.partOrNull _).bind fun e he =>
      .ok ?_
    rw [isWritable, hc, ht, he, Bool.and_self, Bool.and_self]
  · refine (h.part _).bind fun c hc => (h.part _).bind fun b hb => .ok ?_
    rw [isWritable, hc, hb, Bool.and_self]
  · exact (token _).bind fun t _ => (Loads.any _).bind fun ps _ => (h.parts _).bind fun b hb => .ok hb
  · exact (token _).bind fun t _ => (h.partOrNull _).bind fun v hv => .ok hv
  · exact .error _
  · exact .error _

/-! ### Whole values -/

mutual

/-- Whatever is loaded can be written. -/
theorem ofJson_loads : ∀ v : Json, Loads (fun n => n.isWritable = true) (ofJson v)
  | .null | .bool _ | .float _ | .str _ => .ok rfl
  | .int n => by
      rw [ofJson]
      split
      · exact .ok rfl
      · exact .error _
  | .arr items => by
      rw [ofJson]
      split
      · rename_i ns hns
        exact .ok (ofJsonAll_loads items ns hns)
      · exact .error _
  | .obj members => by
      rw [ofJson]
      split
      · exact .ok rfl
      · split
        · exact .ok rfl
        · exact .error _
      · exact ofFields_loads (fieldsOf_writable members) _

/-- Lists of values, by recursion on them. -/
theorem ofJsonAll_loads :
    ∀ items : List Json, Loads (fun ns => allWritable ns = true) (ofJsonAll items)
  | [] => .ok rfl
  | v :: rest => by
      rw [ofJsonAll]
      split
      · exact .error _
      · rename_i n hn
        split
        · exact .error _
        · rename_i ns hns
          refine .ok ?_
          rw [allWritable, ofJson_loads v n hn, ofJsonAll_loads rest ns hns, Bool.and_self]

/-- The members of an object, by recursion on them. -/
theorem fieldsOf_writable : ∀ members : List (Text × Json), Field.Writable (fieldsOf members)
  | [] => fun f hf => absurd hf List.not_mem_nil
  | (name, v) :: rest => by
      rw [fieldsOf]
      exact List.forall_mem_cons.mpr ⟨ofJson_loads v, fieldsOf_writable rest⟩

end

/-- What is written of the tree that a value is loaded as, if it is loaded and can be written. -/
def rewrite? (v : Json) : Option Json :=
  match ofJson v with
  | .ok n => n.toJson?
  | .error _ => none

/-- A tree that can be written is. -/
theorem toJson?_of_isWritable {n : Node} (h : n.isWritable = true) : n.toJson? = some n.toJson := by
  rw [toJson?, if_pos h]

/-- What was loaded is written again. -/
theorem rewrite?_of_ok {v : Json} {n : Node} (h : ofJson v = .ok n) : rewrite? v = n.toJson? := by
  rw [rewrite?, h]

/-- A program text gives a tree that can be written. -/
theorem list_isWritable {source : String} {statements : List Node}
    (h : Program.ofSource source = .ok statements) : (Node.list statements).isWritable = true := by
  have hall := Program.ofSource_eq_ok (T := Token.CutWithin (source.length + 1)) (fun _ ht => ht)
    (fun _ ht => ⟨_, ht⟩) h
  exact allWritable_iff.mpr fun s hs => (hall s hs).isWritable

/-- **Loading and writing is a retraction.**  If a JSON value of any shape is loaded as a tree, the
tree can be written, what is written is loaded as the same tree, and so loading and writing what is
written changes nothing.  The statements of a program text can be written and are loaded back, so
texts with different statements are written differently. -/
theorem ofJson_retraction :
    (∀ v n, ofJson v = .ok n →
      ∃ w, n.toJson? = some w ∧ ofJson w = .ok n ∧ rewrite? v = some w ∧ rewrite? w = some w) ∧
    (∀ source statements, Program.ofSource source = .ok statements →
      ∃ w, (Node.list statements).toJson? = some w ∧ ofJson w = .ok (.list statements)) ∧
    ∀ source source' statements statements', Program.ofSource source = .ok statements →
      Program.ofSource source' = .ok statements' →
      (Node.list statements).toJson? = (Node.list statements').toJson? →
      statements = statements' := by
  refine ⟨fun v n h => ?_, fun source statements h => ?_, ?_⟩
  · have hw := ofJson_loads v n h
    have hwritten := toJson?_of_isWritable hw
    have hback := ofJson_toJson n hw
    refine ⟨n.toJson, hwritten, hback, ?_, ?_⟩
    · rw [rewrite?_of_ok h, hwritten]
    · rw [rewrite?_of_ok hback, hwritten]
  · have hw := list_isWritable h
    exact ⟨_, toJson?_of_isWritable hw, ofJson_toJson _ hw⟩
  · intro source source' statements statements' h h' heq
    have hw := list_isWritable h
    have hw' := list_isWritable h'
    rw [toJson?_of_isWritable hw, toJson?_of_isWritable hw', Option.some.injEq] at heq
    have hback := ofJson_toJson _ hw
    rw [heq, ofJson_toJson _ hw'] at hback
    cases hback
    rfl

/-- A call whose arguments are a text, whose callee is an integer and whose token has odd parts is loaded,
and written in another way; `nil;` and `!nil;` are loaded back. -/
theorem ofJson_retraction_odd_call :
    let v := Json.obj [("type", .str "Call"), ("callee", .int 3),
      ("paren", .obj [("type", .str "EOF"), ("lexeme", .arr []), ("line", .bool true)]),
      ("arguments", .str "ab"), ("comment", .null)]
    let n := Node.call (.number ⟨0x4008000000000000⟩) ⟨.eof, .arr [], .null, .bool true⟩
      [.text "a", .text "b"]
    ofJson v = .ok n ∧
    (∃ w, w ≠ v ∧ n.toJson? = some w ∧ ofJson w = .ok n ∧ rewrite? v = some w ∧
      rewrite? w = some w) ∧
    ∃ p p', Program.ofSource "nil;" = .ok p ∧ Program.ofSource "!nil;" = .ok p' ∧
      (∃ w, (Node.list p).toJson? = some w ∧ ofJson w = .ok (.list p)) ∧
      (Node.list p).toJson? ≠ (Node.list p').toJson? := by
  intro v n
  have hv : ofJson v = .ok n := by rfl
  have hscan : scan "nil;" = .ok [.ofText .nilWord "nil" .null 1, .ofText .semicolon ";" .null 1,
    .ofText .eof "" .null 1] := rfl
  have hscan' : scan "!nil;" = .ok [.ofText .bang "!" .null 1, .ofText .nilWord "nil" .null 1,
    .ofText .semicolon ";" .null 1, .ofText .eof "" .null 1] := rfl
  have hp : Program.ofSource "nil;" = .ok [.expression (.literal .nil)] := by
    rw [Program.ofSource, hscan]
    rfl
  have hp' : Program.ofSource "!nil;" =
      .ok [.expression (.unary (.ofText .bang "!" .null 1) (.literal .nil))] := by
    rw [Program.ofSource, hscan']
    rfl
  obtain ⟨hloaded, hprogram, hdistinct⟩ := ofJson_retraction
  obtain ⟨w, hw, hback⟩ := hloaded v n hv
  refine ⟨hv, ⟨w, ?_, hw, hback⟩, _, _, hp, hp', hprogram _ _ hp, fun heq => ?_⟩
  · have hne : n.toJson? ≠ some v := by decide
    rintro rfl
    exact hne hw
  · cases hdistinct _ _ _ _ hp hp' heq

end Node

end Lox
