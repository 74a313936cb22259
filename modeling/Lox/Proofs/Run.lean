import Lox.Eval

/-!
# What a step of a run keeps

`Run.Meets I F Q p`: started on a machine in `I`, the step `p` ends on a machine in `I`, with a value
in `Q` or for a reason in `F`.  It goes through sequencing (`Run.Meets.bind`) and through the three
ways to repeat a step: for each item (`collect`), up to the first value (`firstOf`) and while a
condition holds (`whileTrue`).
-/

namespace Lox

variable {α β : Type}

/-- The end of a step: a value in `Q` or a reason in `F`, and either way a machine in `I`. -/
inductive Result.Meets (I : Machine → Prop) (F : Stop → Prop) (Q : α → Prop) :
    Result α → Prop where
  | ok {a : α} {m : Machine} (ha : Q a) (hm : I m) : Meets I F Q (.ok a m)
  | stop {why : Stop} {m : Machine} (hw : F why) (hm : I m) : Meets I F Q (.stop why m)

namespace Run

/-- Started on a machine in `I`, the step ends on a machine in `I`, with a value in `Q` or for a
reason in `F`. -/
def Meets (I : Machine → Prop) (F : Stop → Prop) (Q : α → Prop) (p : Run α) : Prop :=
  ∀ m, I m → (p m).Meets I F Q

namespace Meets

variable {I : Machine → Prop} {F : Stop → Prop} {P : α → Prop} {Q : β → Prop}

/-- A value that comes out is in the set, on a machine in the invariant. -/
theorem ok {p : Run α} (hp : Meets I F P p) {a : α} {m m' : Machine} (hm : I m)
    (h : p m = .ok a m') : P a ∧ I m' := by
  have hr := hp m hm
  rw [h] at hr
  cases hr with
  | ok ha hm' => exact ⟨ha, hm'⟩

theorem pure {a : α} (ha : P a) : Meets I F P (pure a) := fun _ hm => .ok ha hm

theorem fault {f : Fault} (hf : F (.fault f)) : Meets I F P (fault f) := fun _ hm => .stop hf hm

theorem exhausted (hf : F .exhausted) : Meets I F P (exhausted : Run α) :=
  fun _ hm => .stop hf hm

/-- A step that changes the machine and gives a value. -/
theorem change {a : Machine → α} {g : Machine → Machine} (ha : ∀ m, I m → P (a m))
    (hg : ∀ m, I m → I (g m)) : Meets I F P fun m => .ok (a m) (g m) :=
  fun m hm => .ok (ha m hm) (hg m hm)

/-- Sequencing: the second step need only be considered for values of the first. -/
theorem bind {p : Run α} {f : α → Run β} (hp : Meets I F P p)
    (hf : ∀ a, P a → Meets I F Q (f a)) : Meets I F Q (p >>= f) := by
  intro m hm
  have h := hp m hm
  show (andThen p f m).Meets I F Q
  rw [andThen]
  generalize p m = r at h ⊢
  cases h with
  | ok ha hm' => exact hf _ ha _ hm'
  | stop hw hm' => exact .stop hw hm'

/-- Less may be said of the values. -/
theorem mono {p : Run α} {P' : α → Prop} (hp : Meets I F P p) (h : ∀ a, P a → P' a) :
    Meets I F P' p := by
  intro m hm
  have hr := hp m hm
  generalize p m = r at hr ⊢
  cases hr with
  | ok ha hm' => exact .ok (h _ ha) hm'
  | stop hw hm' => exact .stop hw hm'

theorem map {p : Run α} {f : α → β} (hp : Meets I F P p) (hf : ∀ a, P a → Q (f a)) :
    Meets I F Q (f <$> p) :=
  bind hp fun _ ha => pure (hf _ ha)

/-- A result that is there already changes no machine. -/
theorem ofExcept {r : Except Fault α} (hok : ∀ a, r = .ok a → P a)
    (herror : ∀ f, r = .error f → F (.fault f)) : Meets I F P (Run.ofExcept r) := by
  cases r with
  | ok a => exact pure (hok a rfl)
  | error f => exact fault (herror f rfl)

/-- For each item, by induction on them. -/
theorem collect {f : β → Run α} {bs : List β} (hf : ∀ b ∈ bs, Meets I F P (f b)) :
    Meets I F (fun as => ∀ a ∈ as, P a) (Run.collect f bs) := by
  induction bs with
  | nil => exact pure fun a ha => absurd ha List.not_mem_nil
  | cons b bs ih =>
      rw [Run.collect]
      refine bind (hf b List.mem_cons_self) fun a ha => ?_
      refine bind (ih fun b' hb' => hf b' (List.mem_cons_of_mem b hb')) fun as has => ?_
      exact pure (List.forall_mem_cons.mpr ⟨ha, has⟩)

/-- Up to the first value, by induction on the items. -/
theorem firstOf {f : β → Run (Option α)} {bs : List β}
    (hf : ∀ b ∈ bs, Meets I F (fun o => ∀ a, o = some a → P a) (f b)) :
    Meets I F (fun o => ∀ a, o = some a → P a) (Run.firstOf f bs) := by
  induction bs with
  | nil => exact fun m hm => .ok (fun a ha => by cases ha) hm
  | cons b bs ih =>
      intro m hm
      have h := hf b List.mem_cons_self m hm
      rw [Run.firstOf]
      generalize f b m = r at h ⊢
      cases h with
      | stop hw hm' => exact .stop hw hm'
      | @ok o m' ho hm' =>
          cases o with
          | none => exact ih (fun b' hb' => hf b' (List.mem_cons_of_mem b hb')) m' hm'
          | some a => exact .ok ho hm'

/-- A loop keeps what each of its rounds keeps. -/
theorem whileTrue {condition : Run Bool} {body : Run (Option α)} {rounds : Nat}
    (hu : F (.fault .unfinished)) (hc : Meets I F (fun _ => True) condition)
    (hb : Meets I F (fun o => ∀ a, o = some a → P a) body) :
    Meets I F (fun o => ∀ a, o = some a → P a) (Run.whileTrue condition body rounds) := by
  induction rounds with
  | zero => exact fun m hm => .stop hu hm
  | succ rounds ih =>
      intro m hm
      have h := hc m hm
      rw [Run.whileTrue]
      generalize condition m = r at h ⊢
      cases h with
      | stop hw hm' => exact .stop hw hm'
      | @ok b m' _ hm' =>
          cases b with
          | false => exact .ok (fun a ha => by cases ha) hm'
          | true =>
              have h' := hb m' hm'
              dsimp only
              generalize body m' = r' at h' ⊢
              cases h' with
              | stop hw hm'' => exact .stop hw hm''
              | @ok o m'' ho hm'' =>
                  cases o with
                  | none => exact ih m'' hm''
                  | some a => exact .ok ho hm''

end Meets

end Run

end Lox
