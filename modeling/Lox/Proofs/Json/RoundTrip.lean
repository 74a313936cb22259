import Lox.Proofs.Json.Number
import Lox.Proofs.Json.Text

/-!
# Reading what was written

A value that was written in either layout is read back (`Json.parse_render`), if it is one that can
be read at all: its integers have few enough digits, its numbers are numbers, its texts are strings,
and no object has two members with one name (`Json.Readable`).

The reader is given fuel.  `Reader.ReadsValue`, `Reader.ReadsItems` and `Reader.ReadsMembers` say
what is read back with a given amount; each is shown for one more from the others, and then for all
amounts at once.
-/

namespace Lox

namespace Json

/-! ### What is put in front -/

/-- The first text is the second one with characters in front, none of them a carriage return. -/
def Extends (text rest : List Char) : Prop := ∃ front, text = front ++ rest ∧ '\r' ∉ front

namespace Extends

variable {text middle rest : List Char}

theorem refl (rest : List Char) : Extends rest rest := ⟨[], rfl, by simp⟩

/-- More may be put in front, if it holds no carriage return. -/
theorem append {front : List Char} (hfront : '\r' ∉ front) (h : Extends text rest) :
    Extends (front ++ text) rest := by
  obtain ⟨more, rfl, hmore⟩ := h
  exact ⟨front ++ more, (List.append_assoc ..).symm, by simp [hfront, hmore]⟩

theorem cons {c : Char} (hc : c ≠ '\r') (h : Extends text rest) : Extends (c :: text) rest := by
  have hfront : '\r' ∉ [c] := by simpa using hc.symm
  exact append hfront h

/-- What is put in front in two goes is in front. -/
theorem trans (h₁ : Extends text middle) (h₂ : Extends middle rest) : Extends text rest := by
  obtain ⟨front, rfl, hfront⟩ := h₁
  exact append hfront h₂

theorem length_le (h : Extends text rest) : rest.length ≤ text.length := by
  obtain ⟨front, rfl, -⟩ := h
  simp

end Extends

theorem not_mem_toDigits {n : ℕ} : '\r' ∉ Nat.toDigits 10 n :=
  fun h => absurd (isDigit_of_mem_toDigits h) (by decide)

theorem not_mem_hexadecimal (width n : ℕ) : '\r' ∉ (hexadecimal width n).toList := by
  have hdigit : ∀ d < 16, '\r' ≠ d.digitChar := by decide
  have hdigits : '\r' ∉ Nat.toDigits 16 n := by
    induction n using Nat.strongRecOn with
    | ind n ih =>
        rw [Nat.toDigits_eq_if (by decide)]
        split
        · simp [hdigit n ‹_›]
        · simp [ih (n / 16) (by omega), hdigit (n % 16) (by omega)]
  simp [hexadecimal, hdigits]

theorem not_mem_positional (d : Decimal) : '\r' ∉ d.positional.toList := by
  unfold Decimal.positional
  simp only [Nat.toString_eq_repr, Nat.toList_repr]
  split
  · simp [not_mem_toDigits]
  · split
    · simp [not_mem_toDigits]
    · simp only [String.toList_ofList, List.mem_append, List.mem_cons, not_or]
      exact ⟨fun h => not_mem_toDigits (List.mem_of_mem_take h), by decide,
        fun h => not_mem_toDigits (List.mem_of_mem_drop h)⟩

theorem not_mem_scientific (d : Decimal) : '\r' ∉ d.scientific.toList := by
  unfold Decimal.scientific
  simp only [Nat.toString_eq_repr, Nat.toList_repr, String.toList_ofList, List.mem_append,
    List.mem_cons, not_or]
  have hdigits := @not_mem_toDigits d.digits
  refine ⟨?_, by decide, by split <;> decide, ?_⟩
  · generalize Nat.toDigits 10 d.digits = ds at hdigits
    rcases ds with - | ⟨c, - | ⟨c', cs⟩⟩
    · simp
    · simpa using hdigits
    · simpa using hdigits
  · split <;> simp [not_mem_toDigits]

/-- No spelling of a number holds a carriage return. -/
theorem not_mem_short (x : Number) : '\r' ∉ (x.short numberNames).toList := by
  have hsigned : ∀ text : String, '\r' ∉ text.toList →
      '\r' ∉ ((if x.isNegative then "-" else "") ++ text).toList := by
    intro text htext
    rw [String.toList_append, List.mem_append, not_or]
    exact ⟨by split <;> decide, htext⟩
  unfold Number.short
  split
  · decide
  · dsimp only
    split
    · exact hsigned _ (by decide)
    · split
      · exact hsigned _ (by decide)
      · split
        · exact hsigned _ (not_mem_positional _)
        · exact hsigned _ (not_mem_scientific _)

theorem not_mem_toString_int (n : ℤ) : '\r' ∉ (toString n).toList := by
  rw [Reader.toList_toString_int, List.mem_append, not_or]
  exact ⟨by split <;> decide, not_mem_toDigits⟩

/-- Nor do the line breaks between the parts of a value. -/
theorem Layout.not_mem_breakAt (level : ℕ) : '\r' ∉ breakAt level := by
  simp [breakAt]

theorem Layout.not_mem_opening (layout : Layout) : '\r' ∉ layout.opening := by
  cases layout with
  | line => simp [opening]
  | indented level => exact not_mem_breakAt _

theorem Layout.not_mem_separator (layout : Layout) : '\r' ∉ layout.separator := by
  cases layout with
  | line => decide
  | indented level => simpa [separator] using not_mem_breakAt (level + 1)

theorem Layout.not_mem_closing (layout : Layout) : '\r' ∉ layout.closing := by
  cases layout with
  | line => simp [closing]
  | indented level => exact not_mem_breakAt _

theorem writeChar_extends (c : Char) (rest : List Char) : Extends (writeChar c rest) rest := by
  have hpair : ∀ e, e ≠ '\r' → Extends ('\\' :: e :: rest) rest :=
    fun e he => .cons (by decide) (.cons he (.refl rest))
  unfold writeChar
  by_cases hr : c = '\r'
  · subst hr
    exact hpair 'r' (by decide)
  · split_ifs with h₁ h₂ h₃ h₄ h₅ h₆ h₇
    · exact hpair _ (by decide)
    · exact hpair _ (by decide)
    · exact hpair _ (by decide)
    · exact hpair _ (by decide)
    · exact hpair _ (by decide)
    · exact hpair _ (by decide)
    · exact .cons (by decide) (.cons (by decide) (.append (not_mem_hexadecimal _ _) (.refl rest)))
    · exact .cons hr (.refl rest)

theorem writePoint_extends (point : Text.Point) (rest : List Char) :
    Extends (writePoint point rest) rest := by
  cases point with
  | char c => exact writeChar_extends c rest
  | half h =>
      exact .cons (by decide) (.cons (by decide) (.append (not_mem_hexadecimal _ _) (.refl rest)))

/-- Strings write a carriage return as an escape. -/
theorem writeText_extends (t : Text) (rest : List Char) : Extends (writeText t rest) rest := by
  refine .cons (by decide) ?_
  induction t.points with
  | nil => exact .cons (by decide) (.refl rest)
  | cons point points ih => exact (writePoint_extends point _).trans ih

mutual

/-- What is written for a value stands in front of the rest. -/
theorem write_extends : ∀ (layout : Layout) (v : Json) (rest : List Char),
    Extends (v.write layout rest) rest
  | _, .null, rest | _, .bool true, rest | _, .bool false, rest | _, .arr [], rest
  | _, .obj [], rest => by
      unfold write
      repeat refine .cons (by decide) ?_
      exact .refl rest
  | _, .int n, rest => .append (not_mem_toString_int n) (.refl rest)
  | _, .float x, rest => .append (not_mem_short x) (.refl rest)
  | _, .str t, rest => writeText_extends t rest
  | layout, .arr (v :: items), rest => by
      refine .cons (by decide) (.append layout.not_mem_opening ?_)
      refine (write_extends layout.inner v _).trans ((writeItems_extends layout items _).trans ?_)
      exact .append layout.not_mem_closing (.cons (by decide) (.refl rest))
  | layout, .obj ((name, v) :: members), rest => by
      refine .cons (by decide) (.append layout.not_mem_opening ((writeText_extends name _).trans ?_))
      refine .cons (by decide) (.cons (by decide) ((write_extends layout.inner v _).trans ?_))
      refine (writeMembers_extends layout members _).trans ?_
      exact .append layout.not_mem_closing (.cons (by decide) (.refl rest))

/-- The items of an array, by recursion on them. -/
theorem writeItems_extends : ∀ (layout : Layout) (items : List Json) (rest : List Char),
    Extends (writeItems layout items rest) rest
  | _, [], rest => .refl rest
  | layout, v :: items, rest =>
      .append layout.not_mem_separator
        ((write_extends layout.inner v _).trans (writeItems_extends layout items rest))

/-- The members of an object, by recursion on them. -/
theorem writeMembers_extends : ∀ (layout : Layout) (members : List (Text × Json))
    (rest : List Char), Extends (writeMembers layout members rest) rest
  | _, [], rest => .refl rest
  | layout, (name, v) :: members, rest => by
      refine .append layout.not_mem_separator ((writeText_extends name _).trans ?_)
      refine .cons (by decide) (.cons (by decide) ((write_extends layout.inner v _).trans ?_))
      exact writeMembers_extends layout members rest

end

/-- No carriage return is written. -/
theorem not_mem_write (layout : Layout) (v : Json) : '\r' ∉ v.write layout [] := by
  obtain ⟨front, h, hfront⟩ := write_extends layout v []
  rwa [h, List.append_nil]

/-! ### Values that are read back -/

/-- What is read back when it was written: integers have few enough digits, numbers are numbers,
texts are strings, and no object has two members with one name. -/
inductive Readable : Json → Prop where
  | null : Readable .null
  | bool (b : Bool) : Readable (.bool b)
  | int {n : ℤ} (h : n.natAbs < 10 ^ integerDigitLimit) : Readable (.int n)
  | float {x : Number} (h : x.isNaN = false) : Readable (.float x)
  | str {t : Text} (h : t.isProper) : Readable (.str t)
  | arr {items : List Json} (h : ∀ v ∈ items, Readable v) : Readable (.arr items)
  | obj {members : List (Text × Json)} (hnames : (members.map Prod.fst).Nodup)
      (htexts : ∀ m ∈ members, m.1.isProper) (h : ∀ m ∈ members, Readable m.2) :
      Readable (.obj members)

/-- A member with a new name is added behind the others. -/
theorem setMember_of_not_mem {name : Text} {v : Json} {members : List (Text × Json)}
    (h : name ∉ members.map Prod.fst) : setMember name v members = members ++ [(name, v)] := by
  induction members with
  | nil => rfl
  | cons m members ih =>
      obtain ⟨other, old⟩ := m
      rw [List.map_cons, List.mem_cons, not_or] at h
      rw [setMember, if_neg (Ne.symm h.1), ih h.2, List.cons_append]

namespace Reader

/-! ### Blanks -/

/-- Blanks in front are skipped. -/
theorem skipBlanks_append {blanks cs : List Char} (h : ∀ c ∈ blanks, isBlank c) :
    skipBlanks (blanks ++ cs) = skipBlanks cs :=
  List.dropWhile_append_of_pos h

theorem skipBlanks_cons {c : Char} (h : isBlank c = false) (cs : List Char) :
    skipBlanks (c :: cs) = c :: cs := by
  simp [skipBlanks, h]

/-- The layouts put nothing but blanks between the parts of a value. -/
theorem isBlank_of_mem_breakAt {level : ℕ} {c : Char} (h : c ∈ Layout.breakAt level) :
    isBlank c := by
  rw [Layout.breakAt, List.mem_cons, List.mem_replicate] at h
  rcases h with rfl | ⟨-, rfl⟩ <;> rfl

theorem isBlank_of_mem_opening {layout : Layout} {c : Char} (h : c ∈ layout.opening) :
    isBlank c := by
  cases layout with
  | line => cases h
  | indented level => exact isBlank_of_mem_breakAt h

theorem isBlank_of_mem_closing {layout : Layout} {c : Char} (h : c ∈ layout.closing) :
    isBlank c := by
  cases layout with
  | line => cases h
  | indented level => exact isBlank_of_mem_breakAt h

/-- Items are separated by a comma and blanks. -/
theorem separator_eq (layout : Layout) :
    ∃ blanks, layout.separator = ',' :: blanks ∧ ∀ c ∈ blanks, isBlank c := by
  cases layout with
  | line => exact ⟨[' '], rfl, by simp [isBlank]⟩
  | indented level => exact ⟨_, rfl, fun c hc => isBlank_of_mem_breakAt hc⟩

/-! ### What follows a value -/

theorem endsNumber_nil : EndsNumber [] := by
  rintro c hc
  cases hc

theorem endsNumber_cons {c : Char} (hdigit : c.isDigit = false) (hpoint : c ≠ '.') (he : c ≠ 'e')
    (hE : c ≠ 'E') (cs : List Char) : EndsNumber (c :: cs) := by
  rintro c' hc'
  cases hc'
  exact ⟨hdigit, hpoint, he, hE⟩

/-- So does the end of an array or of an object, in either layout. -/
theorem endsNumber_closing {c : Char} (hc : c = ']' ∨ c = '\x7d') (layout : Layout)
    (rest : List Char) : EndsNumber (layout.closing ++ c :: rest) := by
  cases layout with
  | line => rcases hc with rfl | rfl <;> exact endsNumber_cons rfl (by decide) (by decide) (by decide) _
  | indented level => exact endsNumber_cons rfl (by decide) (by decide) (by decide) _

/-- So does what stands between two items. -/
theorem endsNumber_separator (layout : Layout) (rest : List Char) :
    EndsNumber (layout.separator ++ rest) := by
  obtain ⟨blanks, hblanks, -⟩ := separator_eq layout
  rw [hblanks]
  exact endsNumber_cons rfl (by decide) (by decide) (by decide) _

/-- A number in an array is followed by another item or by the end. -/
theorem endsNumber_writeItems (layout : Layout) (items : List Json) (rest : List Char) :
    EndsNumber (writeItems layout items (layout.closing ++ ']' :: rest)) := by
  cases items with
  | nil => exact endsNumber_closing (.inl rfl) layout rest
  | cons v items => exact endsNumber_separator layout _

/-- A number in an object is followed by another member or by the end. -/
theorem endsNumber_writeMembers (layout : Layout) (members : List (Text × Json))
    (rest : List Char) :
    EndsNumber (writeMembers layout members (layout.closing ++ '\x7d' :: rest)) := by
  cases members with
  | nil => exact endsNumber_closing (.inr rfl) layout rest
  | cons m members => exact endsNumber_separator layout _

/-! ### Single values -/

/-- What starts with a digit or a sign is read as a number. -/
theorem value_number {fuel : ℕ} {cs : List Char} {r : Json × List Char} (h : number cs = .ok r) :
    value (fuel + 1) cs = .ok r := by
  obtain ⟨c, rest, rfl, hne⟩ := number_head h
  rw [value, if_neg (hne _ rfl (by decide)), if_neg (hne _ rfl (by decide)),
    if_neg (hne _ rfl (by decide)), if_neg (hne _ rfl (by decide)), if_neg (hne _ rfl (by decide)),
    if_neg (hne _ rfl (by decide)), if_neg (hne _ rfl (by decide)), if_neg (hne _ rfl (by decide)), h]

/-- A number that is neither finite nor undefined is an infinity. -/
theorem exists_eq_infinity {x : Number} (hx : x.isNaN = false) (h : ¬ x.isFinite) :
    ∃ negative, x = Number.infinity negative := by
  have hmagnitude : x.magnitude = Number.infinityMagnitude := by
    simp only [Number.isNaN, Number.isFinite, decide_eq_true_eq, decide_eq_false_iff_not] at *
    omega
  exact ⟨x.isNegative, by rw [Number.infinity, ← hmagnitude, Number.ofMagnitude_magnitude]⟩

theorem short_infinity (negative : Bool) :
    (Number.infinity negative).short numberNames = if negative then "-Infinity" else "Infinity" := by
  cases negative <;> decide

/-- A number that is not undefined is read back. -/
theorem value_float {fuel : ℕ} {x : Number} (hx : x.isNaN = false) {rest : List Char}
    (h : EndsNumber rest) :
    value (fuel + 1) ((x.short numberNames).toList ++ rest) = .ok (.float x, rest) := by
  by_cases hfinite : x.isFinite
  · exact value_number (number_short hfinite h)
  · obtain ⟨negative, rfl⟩ := exists_eq_infinity hx hfinite
    rw [short_infinity]
    cases negative <;> rfl

/-- The characters with which a value can start: no blank, and not the end of an array. -/
def StartsValue (cs : List Char) : Prop := ∃ c rest, cs = c :: rest ∧ isBlank c = false ∧ c ≠ ']'

theorem StartsValue.append {cs : List Char} (h : StartsValue cs) (more : List Char) :
    StartsValue (cs ++ more) := by
  obtain ⟨c, rest, rfl, hc⟩ := h
  exact ⟨c, rest ++ more, rfl, hc⟩

/-- In front of a value there is nothing to skip. -/
theorem StartsValue.skipBlanks_eq {cs : List Char} (h : StartsValue cs) : skipBlanks cs = cs := by
  obtain ⟨c, rest, rfl, hc, -⟩ := h
  exact skipBlanks_cons hc rest

/-- Whatever is read as a number can start a value. -/
theorem startsValue_of_number {cs : List Char} {r : Json × List Char} (h : number cs = .ok r) :
    StartsValue cs := by
  obtain ⟨c, rest, rfl, hne⟩ := number_head h
  refine ⟨c, rest, rfl, ?_, hne _ rfl (by decide)⟩
  simp [isBlank, hne ' ' rfl (by decide), hne '\t' rfl (by decide), hne '\n' rfl (by decide),
    hne '\r' rfl (by decide)]

/-- A written value starts as a value can. -/
theorem startsValue_write {v : Json} (hv : v.Readable) (layout : Layout) (rest : List Char) :
    StartsValue (v.write layout rest) := by
  cases hv with
  | null | str _ => exact ⟨_, _, rfl, rfl, by decide⟩
  | bool b => cases b <;> exact ⟨_, _, rfl, rfl, by decide⟩
  | int hn =>
      refine StartsValue.append ?_ rest
      simpa using startsValue_of_number (number_int hn endsNumber_nil)
  | @float x hx =>
      refine StartsValue.append ?_ rest
      by_cases hfinite : x.isFinite
      · simpa using startsValue_of_number (number_short hfinite endsNumber_nil)
      · obtain ⟨negative, rfl⟩ := exists_eq_infinity hx hfinite
        rw [short_infinity]
        cases negative <;> exact ⟨_, _, rfl, rfl, by decide⟩
  | @arr items h => cases items <;> exact ⟨_, _, rfl, rfl, by decide⟩
  | @obj members hnames htexts h => cases members <;> exact ⟨_, _, rfl, rfl, by decide⟩

/-! ### Values inside values -/

/-- With so much fuel every written value is read back. -/
def ReadsValue (fuel : ℕ) : Prop :=
  ∀ (v : Json) (layout : Layout) (rest : List Char), v.Readable → EndsNumber rest →
    (v.write layout rest).length < fuel + rest.length →
    value fuel (v.write layout rest) = .ok (v, rest)

/-- With so much fuel the items of an array are read back, the first one and those behind it. -/
def ReadsItems (fuel : ℕ) : Prop :=
  ∀ (v : Json) (behind done : List Json) (layout : Layout) (rest : List Char),
    (∀ w ∈ v :: behind, w.Readable) →
    (v.write layout.inner (writeItems layout behind (layout.closing ++ ']' :: rest))).length <
      fuel + rest.length →
    items fuel done
        (v.write layout.inner (writeItems layout behind (layout.closing ++ ']' :: rest))) =
      .ok (.arr (done.reverse ++ v :: behind), rest)

/-- With so much fuel the members of an object are read back, the first one and those behind it. -/
def ReadsMembers (fuel : ℕ) : Prop :=
  ∀ (name : Text) (v : Json) (behind done : List (Text × Json)) (layout : Layout)
    (rest : List Char), ((done ++ (name, v) :: behind).map Prod.fst).Nodup →
    (∀ m ∈ (name, v) :: behind, m.1.isProper) → (∀ m ∈ (name, v) :: behind, m.2.Readable) →
    (writeText name (':' :: ' ' :: v.write layout.inner
        (writeMembers layout behind (layout.closing ++ '\x7d' :: rest)))).length <
      fuel + rest.length →
    members fuel done (writeText name (':' :: ' ' :: v.write layout.inner
        (writeMembers layout behind (layout.closing ++ '\x7d' :: rest)))) =
      .ok (.obj (done ++ (name, v) :: behind), rest)

/-- Items are read with one more, if values and items are with this many. -/
theorem readsItems_succ {fuel : ℕ} (hvalue : ReadsValue fuel) (hitems : ReadsItems fuel) :
    ReadsItems (fuel + 1) := by
  intro v behind done layout rest hreadable hlength
  have hrest := (writeItems_extends layout behind (layout.closing ++ ']' :: rest)).length_le
  rw [List.length_append, List.length_cons] at hrest
  have hread := hvalue v layout.inner _ (hreadable v (by simp))
    (endsNumber_writeItems layout behind rest) (by omega)
  rw [items, hread]
  dsimp only
  cases behind with
  | nil =>
      rw [writeItems, skipBlanks_append fun c hc => isBlank_of_mem_closing hc, skipBlanks_cons rfl]
      simp
  | cons w behind =>
      obtain ⟨blanks, hblanks, hall⟩ := separator_eq layout
      have hstart := startsValue_write (hreadable w (by simp)) layout.inner
        (writeItems layout behind (layout.closing ++ ']' :: rest))
      have hmore := (write_extends layout.inner v
        (writeItems layout (w :: behind) (layout.closing ++ ']' :: rest))).length_le
      rw [writeItems, hblanks, List.cons_append, List.length_cons, List.length_append] at hmore
      rw [writeItems, hblanks, List.cons_append] at hlength ⊢
      rw [skipBlanks_cons rfl]
      simp only [skipBlanks_append hall, hstart.skipBlanks_eq]
      rw [hitems w behind (v :: done) layout rest (fun u hu => hreadable u (by simp [hu])) (by omega)]
      simp

/-- Members are read with one more, if values and members are with this many. -/
theorem readsMembers_succ {fuel : ℕ} (hvalue : ReadsValue fuel) (hmembers : ReadsMembers fuel) :
    ReadsMembers (fuel + 1) := by
  intro name v behind done layout rest hnames htexts hreadable hlength
  have hname : name ∉ done.map Prod.fst := by
    simp only [List.map_append, List.map_cons, List.nodup_append] at hnames
    exact fun h => hnames.2.2 name h name (by simp) rfl
  have hrest := (writeMembers_extends layout behind (layout.closing ++ '\x7d' :: rest)).length_le
  rw [List.length_append, List.length_cons] at hrest
  have hproper : name.isProper := htexts (name, v) (by simp)
  have htext := (writeText_extends name (':' :: ' ' :: v.write layout.inner
    (writeMembers layout behind (layout.closing ++ '\x7d' :: rest)))).length_le
  rw [List.length_cons, List.length_cons] at htext
  have hstart := startsValue_write (hreadable (name, v) (by simp)) layout.inner
    (writeMembers layout behind (layout.closing ++ '\x7d' :: rest))
  have hread := hvalue v layout.inner _ (hreadable (name, v) (by simp))
    (endsNumber_writeMembers layout behind rest) (by omega)
  -- one blank stands between the colon and the value
  have hblank : skipBlanks (' ' :: v.write layout.inner
      (writeMembers layout behind (layout.closing ++ '\x7d' :: rest))) = _ := hstart.skipBlanks_eq
  unfold writeText
  rw [members]
  simp only [text_writeText hproper, skipBlanks_cons (show isBlank ':' = false from rfl), hblank, hread,
    setMember_of_not_mem hname]
  cases behind with
  | nil =>
      rw [writeMembers, skipBlanks_append fun c hc => isBlank_of_mem_closing hc,
        skipBlanks_cons rfl]
      rfl
  | cons m behind =>
      obtain ⟨name', w⟩ := m
      obtain ⟨blanks, hblanks, hall⟩ := separator_eq layout
      have hmore := (write_extends layout.inner v
        (writeMembers layout ((name', w) :: behind) (layout.closing ++ '\x7d' :: rest))).length_le
      rw [writeMembers, hblanks, List.cons_append, List.length_cons, List.length_append] at hmore
      have hquote : skipBlanks (writeText name' (':' :: ' ' :: w.write layout.inner
          (writeMembers layout behind (layout.closing ++ '\x7d' :: rest)))) = _ :=
        skipBlanks_cons rfl _
      rw [writeMembers, hblanks, List.cons_append] at hlength htext ⊢
      rw [skipBlanks_cons rfl]
      simp only [skipBlanks_append hall, hquote]
      refine (hmembers name' w behind (done ++ [(name, v)]) layout rest ?_ ?_ ?_ ?_).trans ?_
      · simpa using hnames
      · exact fun m hm => htexts m (by simp [hm])
      · exact fun m hm => hreadable m (by simp [hm])
      · omega
      · simp

/-- Values are read with one more, if items and members are with this many. -/
theorem readsValue_succ {fuel : ℕ} (hitems : ReadsItems fuel) (hmembers : ReadsMembers fuel) :
    ReadsValue (fuel + 1) := by
  intro v layout rest hv hrest hlength
  cases hv with
  | null => rfl
  | bool b => cases b <;> rfl
  | int hn => exact value_number (number_int hn hrest)
  | float hx => exact value_float hx hrest
  | str ht =>
      rw [write, writeText, value, if_pos rfl, text_writeText ht]
  | @arr all h =>
      cases all with
      | nil => rfl
      | cons w behind =>
          have hstart := startsValue_write (h w (by simp)) layout.inner
            (writeItems layout behind (layout.closing ++ ']' :: rest))
          rw [write, List.length_cons, List.length_append] at hlength
          rw [write, value, if_neg (by decide), if_pos rfl,
            skipBlanks_append fun c hc => isBlank_of_mem_opening hc, hstart.skipBlanks_eq]
          have hread := hitems w behind [] layout rest h (by omega)
          -- a value does not start like the end of an array, so it is not taken for one
          obtain ⟨c, cs, hcs, -, hc⟩ := hstart
          rw [hcs] at hread ⊢
          split
          · rename_i heq
            exact absurd (List.cons.inj heq).1 hc
          · exact hread
  | @obj all hnames htexts h =>
      cases all with
      | nil => rfl
      | cons m behind =>
          obtain ⟨name, w⟩ := m
          rw [write, List.length_cons, List.length_append] at hlength
          rw [write, value, if_neg (by decide), if_neg (by decide), if_pos rfl,
            skipBlanks_append fun c hc => isBlank_of_mem_opening hc]
          exact hmembers name w behind [] layout rest hnames htexts h (by omega)

/-- Whatever the amount of fuel, it is enough for as many characters. -/
theorem reads (fuel : ℕ) : ReadsValue fuel ∧ ReadsItems fuel ∧ ReadsMembers fuel := by
  induction fuel with
  | zero =>
      -- without fuel there are no characters to be read
      refine ⟨?_, ?_, ?_⟩
      · intro v layout rest _ _ hlength
        have hle := (write_extends layout v rest).length_le
        omega
      · intro v behind done layout rest _ hlength
        have hle := ((write_extends layout.inner v _).trans
          (writeItems_extends layout behind (layout.closing ++ ']' :: rest))).length_le
        simp only [List.length_append, List.length_cons] at hle
        omega
      · intro name v behind done layout rest _ _ _ hlength
        have hle := (writeText_extends name (':' :: ' ' :: v.write layout.inner
          (writeMembers layout behind (layout.closing ++ '\x7d' :: rest)))).length_le
        have hle' := ((write_extends layout.inner v _).trans
          (writeMembers_extends layout behind (layout.closing ++ '\x7d' :: rest))).length_le
        simp only [List.length_append, List.length_cons] at hle hle'
        omega
  | succ fuel ih =>
      obtain ⟨hvalue, hitems, hmembers⟩ := ih
      exact ⟨readsValue_succ hitems hmembers, readsItems_succ hvalue hitems,
        readsMembers_succ hvalue hmembers⟩

end Reader

/-- **A value that can be read is read back from what was written**, in either layout. -/
theorem parse_render {v : Json} (hv : v.Readable) (layout : Layout) :
    parse (v.render layout) = .ok v := by
  have hstart := Reader.startsValue_write hv layout []
  have hread := (Reader.reads (2 * (v.write layout []).length + 2)).1 v layout [] hv
    Reader.endsNumber_nil (by omega)
  rw [parse, render, String.toList_ofList, hstart.skipBlanks_eq, hread]
  rfl

end Json

end Lox
