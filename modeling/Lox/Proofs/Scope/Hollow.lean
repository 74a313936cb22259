import Lox.Proofs.Scope.Alike

/-!
# One heap grows by scopes that bind nothing

A heap may grow by a scope that the other does not have, as long as no name is ever bound in it: the
new scope is hollow, and stands for what the scope around it stands for.  The correspondence has to
change for that, as the scopes made next no longer have the counterparts they had.

* `Correspondence.Extends c' c k k'`: what corresponds among the first scopes still does.
* `Correspondence.Complete c k`: only hollow scopes have no counterpart, and the first so many scopes of
  both heaps correspond to themselves.
* `Host.IgnoresScopes host k`: the natives do the same for scopes that correspond.
* `Heap.Opens h i h'`: the heap `h'` is `h` with scopes inside `i` that bind nothing.
* `Heap.Alike.opens`: heaps that are alike stay alike when either or both of them open scopes, in
  the correspondence that takes these for hollow (`Correspondence.adjoin`).
-/

namespace Lox

/-! ### Correspondences -/

namespace Correspondence

/-- What corresponds among the first so many scopes of each heap still corresponds. -/
structure Extends (c' c : Correspondence) (k k' : Nat) : Prop where
  pairs : ∀ {i j}, i < k → j < k' → c.Pairs i j → c'.Pairs i j
  related : ∀ {i j}, i < k → j < k' → c.Related i j → c'.Related i j

/-- Every scope that does not stand for another has a counterpart, and each of the first so many, which
both heaps had from the start, corresponds to itself. -/
structure Complete (c : Correspondence) (k : Nat) : Prop where
  left : ∀ {i}, c.left i = i → ∃ j, c.Pairs i j
  right : ∀ {j}, c.right j = j → ∃ i, c.Pairs i j
  same : ∀ i < k, c.Related i i
  first : k ≤ c.first.size
  second : k ≤ c.second.size

theorem Extends.refl (c : Correspondence) (k k' : Nat) : c.Extends c k k' :=
  ⟨fun _ _ h => h, fun _ _ h => h⟩

theorem Extends.trans {c c' c'' : Correspondence} {k k' l l' : Nat} (h : c'.Extends c k k')
    (h' : c''.Extends c' l l') (hk : k ≤ l) (hk' : k' ≤ l') : c''.Extends c k k' := by
  constructor
  · intro i j hi hj hp
    exact h'.pairs (Nat.lt_of_lt_of_le hi hk) (Nat.lt_of_lt_of_le hj hk') (h.pairs hi hj hp)
  · intro i j hi hj hr
    exact h'.related (Nat.lt_of_lt_of_le hi hk) (Nat.lt_of_lt_of_le hj hk') (h.related hi hj hr)

end Correspondence

/-- What the natives do does not depend on which of two scopes that correspond a function has.  They may
hold functions of the first so many scopes. -/
def Host.IgnoresScopes (host : Host) (k : Nat) : Prop :=
  ∀ c : Correspondence, c.Complete k → host.InStep c

/-- A host with nothing but a clock looks at no scope. -/
theorem Host.ofClock_ignoresScopes (clock : Nat → Number) (k : Nat) :
    (Host.ofClock clock).IgnoresScopes k :=
  fun _ _ => .of_reply fun _ _ _ _ _ _ _ _ _ => .raised ""

/-- What scopes stand for when those from `k` up to `l` stand for `o`, and all further ones for
themselves. -/
def standing (stands : Nat → Nat) (k l o i : Nat) : Nat :=
  if i < k then stands i else if i < l then o else i

section Standing

variable {stands : Nat → Nat} {k l o i : Nat}

theorem standing_old (hi : i < k) : standing stands k l o i = stands i := if_pos hi

/-- The scopes that were opened stand for the one around them. -/
theorem standing_opened (hk : k ≤ i) (hi : i < l) : standing stands k l o i = o := by
  rw [standing, if_neg (Nat.not_lt.mpr hk), if_pos hi]

theorem standing_fresh (hk : k ≤ l) (hi : l ≤ i) : standing stands k l o i = i := by
  rw [standing, if_neg (Nat.not_lt.mpr (Nat.le_trans hk hi)), if_neg (Nat.not_lt.mpr hi)]

end Standing

/-- The first `k` and `k'` scopes correspond as they did, the next ones up to `l` and `l'` stand for
`o` and `o'`, and from there on scopes that are made together are counterparts. -/
def Correspondence.adjoin (c : Correspondence) {k k' l l' : Nat} (hk : k ≤ l) (hk' : k' ≤ l')
    (o o' : Nat) : Correspondence where
  left := standing c.left k l o
  right := standing c.right k' l' o'
  Pairs i j := (i < k ∧ j < k' ∧ c.Pairs i j) ∨ ∃ d, i = l + d ∧ j = l' + d
  first := c.first
  second := c.second
  left_eq := by
    rintro i j (⟨hi, -, hp⟩ | ⟨d, rfl, -⟩)
    · rw [standing_old hi, c.left_eq hp]
    · exact standing_fresh hk (Nat.le_add_right l d)
  right_eq := by
    rintro i j (⟨-, hj, hp⟩ | ⟨d, -, rfl⟩)
    · rw [standing_old hj, c.right_eq hp]
    · exact standing_fresh hk' (Nat.le_add_right l' d)
  left_inj := by
    rintro i i' j (⟨-, hj, hp⟩ | ⟨d, rfl, rfl⟩) (⟨-, hj', hp'⟩ | ⟨d', rfl, hd⟩)
    · exact c.left_inj hp hp'
    · omega
    · omega
    · omega
  right_inj := by
    rintro i j j' (⟨hi, -, hp⟩ | ⟨d, rfl, rfl⟩) (⟨hi', -, hp'⟩ | ⟨d', hd, rfl⟩)
    · exact c.right_inj hp hp'
    · omega
    · omega
    · omega

/-! ### Values and scopes in a larger correspondence -/

variable {c c' : Correspondence} {k k' l l' : Nat}

/-- Values that are alike stay so in a correspondence that extends this one. -/
theorem Value.Alike.extend {v v' : Value} (h : v.Alike c k k' v') (he : c'.Extends c k k')
    (hk : k ≤ l) (hk' : k' ≤ l') : v.Alike c' l l' v' := by
  cases h with
  | plain h => exact .plain h
  | function h hi hj =>
      exact .function (he.related hi hj h) (Nat.lt_of_lt_of_le hi hk) (Nat.lt_of_lt_of_le hj hk')

/-- So do scopes, if the scopes around them were there. -/
theorem Scope.Alike.extend {s s' : Scope Value} (h : s.Alike c k k' s') (he : c'.Extends c k k')
    (hs : ∀ o, s.enclosing = some o → o < k) (hs' : ∀ o, s'.enclosing = some o → o < k')
    (hk : k ≤ l) (hk' : k' ≤ l') : s.Alike c' l l' s' := by
  obtain ⟨hr, hb⟩ := h
  refine ⟨?_, List.Forall₂.imp (fun _ _ hv => ⟨hv.1, hv.2.extend he hk hk'⟩) hb⟩
  generalize s.enclosing = e, s'.enclosing = e' at hr hs hs'
  cases hr with
  | none => exact .none
  | @some o o' hr => exact .some (he.related (hs o rfl) (hs' o' rfl) hr)

/-! ### Heaps -/

/-- A heap with more scopes inside `i`, all of which bind nothing. -/
structure Heap.Opens (h : Heap Value) (i : Nat) (h' : Heap Value) : Prop where
  size_le : h.size ≤ h'.size
  old : ∀ j < h.size, h'.get? j = h.get? j
  opened : ∀ j s, h.size ≤ j → h'.get? j = some s → s = ⟨some i, []⟩

theorem Heap.Opens.refl (h : Heap Value) (i : Nat) : h.Opens i h := by
  refine ⟨Nat.le_refl _, fun _ _ => rfl, fun j s hj hs => ?_⟩
  rw [Heap.get?_eq_none hj] at hs
  cases hs

theorem Heap.Opens.push (h : Heap Value) (i : Nat) : h.Opens i (h.push (some i)) := by
  refine ⟨(Heap.Grows.push _ _).size_le, fun j hj => ?_, fun j s hj hs => ?_⟩
  · rw [Heap.get?_push, if_neg (Nat.ne_of_lt hj)]
  · rw [Heap.get?_push] at hs
    split at hs
    · exact (Option.some.inj hs).symm
    · rw [Heap.get?_eq_none hj] at hs
      cases hs

namespace Heap.InOrder

variable {stands : Nat → Nat} {Seen Seen' : Nat → Prop} {start h h' : Heap Value} {i : Nat}

/-- A scope stands for itself or for one further out. -/
theorem stands_le (hh : h.InOrder stands Seen start) (hi : i < h.size) : stands i ≤ i := by
  induction i using Nat.strongRecOn with
  | ind i ih =>
      by_cases hs : stands i = i
      · exact Nat.le_of_eq hs
      · obtain ⟨s, hget⟩ := Heap.exists_get? hi
        obtain ⟨-, o, ho, heq⟩ := hh.hollow i s hget hs
        have hlt := hh.descends i s o hget ho
        have := ih o hlt (Nat.lt_trans hlt hi)
        omega

/-- Opened scopes stand for what the scope around them stands for. -/
theorem opens (hh : h.InOrder stands Seen start) (ho : h.Opens i h') (hi : i < h.size)
    (hseen : ∀ j < h.size, Seen j → Seen' j) :
    h'.InOrder (standing stands h.size h'.size (stands i)) Seen' start := by
  refine ⟨fun j s o hs he => ?_, Nat.le_trans hh.grown ho.size_le, fun j s hs hj => ?_,
    fun j hj hn => ?_⟩
  · rcases Nat.lt_or_ge j h.size with hlt | hge
    · rw [ho.old j hlt] at hs
      exact hh.descends j s o hs he
    · rw [ho.opened j s hge hs] at he
      cases he
      exact Nat.lt_of_lt_of_le hi hge
  · have hlt' := Heap.lt_size_of_get? hs
    rcases Nat.lt_or_ge j h.size with hlt | hge
    · rw [ho.old j hlt] at hs
      rw [standing_old hlt] at hj ⊢
      obtain ⟨hb, o, he, heq⟩ := hh.hollow j s hs hj
      refine ⟨hb, o, he, ?_⟩
      rw [standing_old (Nat.lt_trans (hh.descends j s o hs he) hlt), heq]
    · rw [ho.opened j s hge hs, standing_opened hge hlt']
      exact ⟨rfl, i, rfl, standing_old hi⟩
  · have hlt := Nat.lt_of_lt_of_le hj hh.grown
    rw [ho.old j hlt]
    exact hh.frame j hj fun hs => hn (hseen j hlt hs)

end Heap.InOrder

namespace Heap.Alike

variable {h h' h₁ h₁' : Heap Value} {i j : Nat}

/-- What corresponds is kept when hollow scopes are adjoined. -/
theorem extends_adjoin (ha : Heap.Alike c h h') (hk : h.size ≤ l) (hk' : h'.size ≤ l') (o o' : Nat) :
    (c.adjoin hk hk' o o').Extends c h.size h'.size := by
  refine ⟨fun hi hj hp => .inl ⟨hi, hj, hp⟩, fun {i j} hi hj hr => .inl ?_⟩
  show standing c.left h.size l o i < _ ∧ standing c.right h'.size l' o' j < _ ∧
    c.Pairs (standing c.left h.size l o i) (standing c.right h'.size l' o' j)
  rw [standing_old hi, standing_old hj]
  exact ⟨Nat.lt_of_le_of_lt (ha.first.stands_le hi) hi,
    Nat.lt_of_le_of_lt (ha.second.stands_le hj) hj, hr⟩

/-- The opened scopes stand for scopes that were there, so only they have no counterpart. -/
theorem complete_adjoin (ha : Heap.Alike c h h') {n : Nat} (hc : c.Complete n) (hk : h.size ≤ l)
    (hk' : h'.size ≤ l') {o o' : Nat} (ho : o < h.size) (ho' : o' < h'.size) :
    (c.adjoin hk hk' o o').Complete n := by
  have hn := Nat.le_trans hc.first ha.first.grown
  have hn' := Nat.le_trans hc.second ha.second.grown
  refine ⟨?_, ?_, fun i hi => (ha.extends_adjoin hk hk' o o').related (Nat.lt_of_lt_of_le hi hn)
    (Nat.lt_of_lt_of_le hi hn') (hc.same i hi), hc.first, hc.second⟩
  · intro i (hi : standing c.left h.size l o i = i)
    rcases Nat.lt_or_ge i h.size with hlt | hge
    · rw [standing_old hlt] at hi
      obtain ⟨j, hp⟩ := hc.left hi
      exact ⟨j, .inl ⟨hlt, (ha.lt_iff hp).mp hlt, hp⟩⟩
    · rcases Nat.lt_or_ge i l with hlt | hge'
      · rw [standing_opened hge hlt] at hi
        omega
      · exact ⟨l' + (i - l), .inr ⟨i - l, by omega, rfl⟩⟩
  · intro j (hj : standing c.right h'.size l' o' j = j)
    rcases Nat.lt_or_ge j h'.size with hlt | hge
    · rw [standing_old hlt] at hj
      obtain ⟨i, hp⟩ := hc.right hj
      exact ⟨i, .inl ⟨(ha.lt_iff hp).mpr hlt, hlt, hp⟩⟩
    · rcases Nat.lt_or_ge j l' with hlt | hge'
      · rw [standing_opened hge hlt] at hj
        omega
      · exact ⟨l + (j - l'), .inr ⟨j - l', rfl, by omega⟩⟩

/-- **Heaps that are alike stay alike when scopes that bind nothing are opened in them**, inside of
`i` in the one and of `j` in the other. -/
theorem opens (ha : Heap.Alike c h h') (ho : h.Opens i h₁) (ho' : h'.Opens j h₁') (hi : i < h.size)
    (hj : j < h'.size) :
    Heap.Alike (c.adjoin ho.size_le ho'.size_le (c.left i) (c.right j)) h₁ h₁' := by
  refine ⟨ha.first.opens ho hi ?_, ha.second.opens ho' hj ?_, fun d => .inr ⟨d, rfl, rfl⟩, ?_⟩
  · exact fun x hx ⟨y, hp⟩ => ⟨y, .inl ⟨hx, (ha.lt_iff hp).mp hx, hp⟩⟩
  · exact fun y hy ⟨x, hp⟩ => ⟨x, .inl ⟨(ha.lt_iff hp).mpr hy, hy, hp⟩⟩
  rintro x y s s' (⟨hx, hy, hp⟩ | ⟨d, rfl, -⟩) hs hs'
  · rw [ho.old x hx] at hs
    rw [ho'.old y hy] at hs'
    have he := ha.extends_adjoin ho.size_le ho'.size_le (c.left i) (c.right j)
    refine (ha.scopes x y s s' hp hs hs').extend he (fun o h => ?_) (fun o h => ?_) ho.size_le
      ho'.size_le
    · exact Nat.lt_trans (ha.first.descends x s o hs h) hx
    · exact Nat.lt_trans (ha.second.descends y s' o hs' h) hy
  · have := Heap.lt_size_of_get? hs
    omega

end Heap.Alike

end Lox
