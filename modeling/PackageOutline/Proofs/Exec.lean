import Mathlib.Order.Defs.Unbundled
import PackageOutline.Outline.Image

/-! # Running programs

Edits, work on outlines, work on projects and changes of disks are programs of one kind: they change
a state, may fail, and a failure keeps what was changed before it.  `exec` runs such a program; the
lemmas say what each construct does to the result and to the state.

`exec_bind_eq_ok` takes a program that ended well apart: it ran through a state in between.  `Always R`
says that the state before and the state after are related by `R`, however the program ends;
`Ensures I P` that it keeps `I` and that its results have `P`. -/

namespace PackageOutline

/-! ### Results -/

section
variable {ε α β : Type}

theorem bind_eq_ok {x : Except ε α} {f : α → Except ε β} {b : β} :
    (x >>= f) = .ok b ↔ ∃ a, x = .ok a ∧ f a = .ok b := by
  cases x with
  | error e => simp [bind, Except.bind]
  | ok a => simp [bind, Except.bind]

theorem throw_eq_ok {e : ε} {a : α} : (throw e : Except ε α) = .ok a ↔ False := by
  simp [throw, throwThe, MonadExceptOf.throw]

theorem pure_eq_ok {a b : α} : (pure a : Except ε α) = .ok b ↔ a = b := by
  simp [pure, Except.pure]

theorem toOption_eq_some {x : Except ε α} {a : α} : x.toOption = some a ↔ x = .ok a := by
  cases x <;> simp [Except.toOption]

theorem mapError_eq_ok {ε' : Type} {f : ε → ε'} {x : Except ε α} {a : α} :
    x.mapError f = .ok a ↔ x = .ok a := by
  cases x with
  | error e => exact ⟨fun h => (by cases h), fun h => (by cases h)⟩
  | ok b =>
      exact ⟨fun h => congrArg Except.ok (Except.ok.inj h),
        fun h => congrArg Except.ok (Except.ok.inj h)⟩

theorem map_eq_ok {f : α → β} {x : Except ε α} {b : β} :
    x.map f = .ok b ↔ ∃ a, x = .ok a ∧ f a = b := by
  cases x <;> simp [Except.map]

theorem map_eq_error {f : α → β} {x : Except ε α} {e : ε} : x.map f = .error e ↔ x = .error e := by
  cases x <;> simp [Except.map]

theorem throw_bind {e : ε} {f : α → Except ε β} : (throw e >>= f : Except ε β) = throw e := rfl

/-- A guarded computation gives a result when the guard holds and the rest does. -/
theorem guard_eq_ok {c : Prop} [Decidable c] {x : Except ε α} {e : ε} {a : α} :
    (if c then x else throw e) = .ok a ↔ c ∧ x = .ok a := by
  split <;> simp [*, throw_eq_ok]

theorem mapM_cons_eq_ok {f : α → Except ε β} {a : α} {l : List α} {bs : List β} :
    (a :: l).mapM f = .ok bs ↔ ∃ b bs', f a = .ok b ∧ l.mapM f = .ok bs' ∧ bs = b :: bs' := by
  rw [List.mapM_cons, bind_eq_ok]
  simp only [bind_eq_ok, pure_eq_ok, @eq_comm _ _ bs, exists_and_left]

theorem mapM_eq_ok_of_mem {f : α → Except ε β} {l : List α} {bs : List β}
    (hl : l.mapM f = .ok bs) {a : α} (ha : a ∈ l) : ∃ b, f a = .ok b := by
  induction l generalizing bs with
  | nil => cases ha
  | cons c l ih =>
      obtain ⟨b, bs, hb, hbs, rfl⟩ := mapM_cons_eq_ok.mp hl
      rcases List.mem_cons.mp ha with rfl | ha
      · exact ⟨b, hb⟩
      · exact ih hbs ha

theorem mapM_eq_error {f : α → Except ε β} {l : List α} {e : ε} (hl : l.mapM f = .error e) :
    ∃ a ∈ l, f a = .error e := by
  induction l with
  | nil => cases hl
  | cons a l ih =>
      rw [List.mapM_cons] at hl
      cases ha : f a with
      | error e' =>
          rw [ha] at hl
          exact ⟨a, List.mem_cons_self, ha.trans (congrArg _ (Except.error.inj hl))⟩
      | ok b =>
          rw [ha] at hl
          cases hm : l.mapM f with
          | error e' =>
              rw [hm] at hl
              obtain ⟨c, hc, hfc⟩ := ih (hm.trans (congrArg _ (Except.error.inj hl)))
              exact ⟨c, List.mem_cons_of_mem _ hc, hfc⟩
          | ok bs =>
              rw [hm] at hl
              cases hl

end

/-! ### Programs -/

/-- The result of a program and the state that it leaves. -/
def exec {ε σ α : Type} (x : ExceptT ε (StateM σ) α) (s : σ) : Except ε α × σ := x.run.run s

section
variable {ε ε' σ α β : Type}

@[simp] theorem exec_pure (a : α) (s : σ) :
    exec (pure a : ExceptT ε (StateM σ) α) s = (.ok a, s) := rfl

@[simp] theorem exec_get (s : σ) : exec (get : ExceptT ε (StateM σ) σ) s = (.ok s, s) := rfl

@[simp] theorem exec_mk (f : σ → Except ε α × σ) (s : σ) :
    exec (ExceptT.mk f : ExceptT ε (StateM σ) α) s = f s := rfl

theorem exec_bind (x : ExceptT ε (StateM σ) α) (f : α → ExceptT ε (StateM σ) β) (s : σ) :
    exec (x >>= f) s = match exec x s with
      | (.ok a, s') => exec (f a) s'
      | (.error e, s') => (.error e, s') := by
  show (match (x.run.run s).1 with | _ => _) = _
  simp only [exec, ExceptT.run_bind, StateT.run_bind]
  rcases x.run.run s with ⟨r, s'⟩
  cases r <;> rfl

theorem exec_bind_of_ok {x : ExceptT ε (StateM σ) α} {f : α → ExceptT ε (StateM σ) β}
    {s s' : σ} {a : α} (h : exec x s = (.ok a, s')) : exec (x >>= f) s = exec (f a) s' := by
  rw [exec_bind, h]

theorem exec_bind_of_error {x : ExceptT ε (StateM σ) α} {f : α → ExceptT ε (StateM σ) β}
    {s s' : σ} {e : ε} (h : exec x s = (.error e, s')) : exec (x >>= f) s = (.error e, s') := by
  rw [exec_bind, h]

theorem exec_bind_eq_ok {x : ExceptT ε (StateM σ) α} {f : α → ExceptT ε (StateM σ) β}
    {s t : σ} {b : β} :
    exec (x >>= f) s = (.ok b, t) ↔ ∃ a s', exec x s = (.ok a, s') ∧ exec (f a) s' = (.ok b, t) := by
  rw [exec_bind]
  rcases exec x s with ⟨r | a, s'⟩
  · simp
  · simp only [Prod.mk.injEq, Except.ok.injEq]
    constructor
    · intro h
      exact ⟨a, s', ⟨rfl, rfl⟩, h⟩
    · rintro ⟨_, _, ⟨rfl, rfl⟩, h⟩
      exact h

theorem exec_bind_cases {x : ExceptT ε (StateM σ) α} {f : α → ExceptT ε (StateM σ) β} {s t : σ}
    {r : Except ε β} (hx : exec (x >>= f) s = (r, t)) :
    (∃ e, exec x s = (.error e, t) ∧ r = .error e) ∨
      ∃ a s', exec x s = (.ok a, s') ∧ exec (f a) s' = (r, t) := by
  rw [exec_bind] at hx
  rcases hrun : exec x s with ⟨e | a, s'⟩
  · rw [hrun] at hx
    obtain ⟨rfl, rfl⟩ := Prod.mk.inj hx
    exact Or.inl ⟨e, rfl, rfl⟩
  · rw [hrun] at hx
    exact Or.inr ⟨a, s', rfl, hx⟩

theorem exec_bind_pure {x : ExceptT ε (StateM σ) α} {f : α → β} {s t : σ} {r : Except ε β}
    (hx : exec (x >>= fun a => pure (f a)) s = (r, t)) :
    ∃ r₁, exec x s = (r₁, t) ∧ r = r₁.map f := by
  rcases exec_bind_cases hx with ⟨e, hrun, rfl⟩ | ⟨a, s', hrun, hrest⟩
  · exact ⟨.error e, hrun, rfl⟩
  · obtain ⟨rfl, rfl⟩ := Prod.mk.inj hrest
    exact ⟨.ok a, hrun, rfl⟩

@[simp] theorem exec_adapt (f : ε → ε') (x : ExceptT ε (StateM σ) α) (s : σ) :
    exec (x.adapt f) s = ((exec x s).1.mapError f, (exec x s).2) := rfl

theorem exec_tryCatch (x : ExceptT ε (StateM σ) α) (handle : ε → ExceptT ε (StateM σ) α) (s : σ) :
    exec (tryCatch x handle) s = match exec x s with
      | (.ok a, s') => (.ok a, s')
      | (.error e, s') => exec (handle e) s' := by
  show exec (ExceptT.tryCatch x handle) s = _
  unfold exec ExceptT.tryCatch ExceptT.run ExceptT.mk
  simp only [StateT.run_bind]
  rcases StateT.run x s with ⟨r, s'⟩
  cases r <;> rfl

@[simp] theorem exec_ite (c : Prop) [Decidable c] (x y : ExceptT ε (StateM σ) α) (s : σ) :
    exec (if c then x else y) s = if c then exec x s else exec y s := by
  split <;> rfl

/-- A fold whose steps each add one result to a view of what is gathered, and keep an invariant of
the elements that are done. -/
theorem exec_foldlM {γ ρ : Type} {step : β → γ → ExceptT ε (StateM σ) β} (view : β → List ρ)
    (image : γ → Except ε ρ) (I : List γ → σ → Prop) (done : List γ) {l : List γ}
    (hstep : ∀ {done b c s r s'}, c ∈ l → I done s → exec (step b c) s = (r, s') →
      r.map view = (image c).map (view b ++ [·]) ∧ (∃ done', I done' s') ∧
        ∀ b', r = .ok b' → I (done ++ [c]) s')
    {b : β} {s s' : σ} {r : Except ε β} (hs : I done s)
    (hx : exec (l.foldlM step b) s = (r, s')) :
    r.map view = (l.mapM image).map (view b ++ ·) ∧ (∃ done', I done' s') ∧
      ∀ b', r = .ok b' → I (done ++ l) s' := by
  induction l generalizing done b s with
  | nil =>
      obtain ⟨rfl, rfl⟩ := Prod.mk.inj hx
      refine ⟨?_, ⟨done, hs⟩, fun _ _ => ?_⟩
      · simp [Except.map, pure, Except.pure]
      · rwa [List.append_nil]
  | cons c l ih =>
      rw [List.foldlM_cons] at hx
      rcases hc : exec (step b c) s with ⟨rc, s₁⟩
      obtain ⟨hview, hsome, hall⟩ := hstep List.mem_cons_self hs hc
      rw [List.mapM_cons]
      cases rc with
      | error e =>
          rw [exec_bind_of_error hc] at hx
          obtain ⟨rfl, rfl⟩ := Prod.mk.inj hx
          refine ⟨?_, hsome, nofun⟩
          rw [map_eq_error.mp hview.symm]
          rfl
      | ok b₁ =>
          rw [exec_bind_of_ok hc] at hx
          obtain ⟨hview', hsome', hall'⟩ :=
            ih _ (fun hmem => hstep (List.mem_cons_of_mem _ hmem)) (hall b₁ rfl) hx
          obtain ⟨a, ha, hb₁⟩ := map_eq_ok.mp hview.symm
          refine ⟨?_, hsome', fun b' hb' => ?_⟩
          · rw [hview', ← hb₁, ha]
            cases l.mapM image with
            | error e' => rfl
            | ok as => simp [Except.map, bind, Except.bind, pure, Except.pure]
          · have := hall' b' hb'
            rwa [List.append_assoc, List.singleton_append] at this

end

/-! ### What always holds -/

section
variable {ε ε' σ α β : Type} {R : σ → σ → Prop} {x : ExceptT ε (StateM σ) α}

/-- Whether a program, however it ends, relates the state that it leaves to the one it started in. -/
def Always (R : σ → σ → Prop) (x : ExceptT ε (StateM σ) α) : Prop :=
  ∀ ⦃s r s'⦄, exec x s = (r, s') → R s s'

namespace Always

theorem adapt (hx : Always R x) (f : ε → ε') : Always R (x.adapt f) := by
  intro s r s' hrun
  rw [exec_adapt] at hrun
  obtain ⟨-, rfl⟩ := Prod.mk.inj hrun
  exact hx rfl

variable [IsPreorder σ R]

theorem pure (a : α) : Always R (Pure.pure a : ExceptT ε (StateM σ) α) := by
  intro s r s' hrun
  obtain ⟨-, rfl⟩ := Prod.mk.inj hrun
  exact refl s

theorem throw (e : ε) : Always R (MonadExcept.throw e : ExceptT ε (StateM σ) α) := by
  intro s r s' hrun
  obtain ⟨-, rfl⟩ := Prod.mk.inj hrun
  exact refl s

theorem get : Always R (MonadState.get : ExceptT ε (StateM σ) σ) := by
  intro s r s' hrun
  obtain ⟨-, rfl⟩ := Prod.mk.inj hrun
  exact refl s

theorem bind {f : α → ExceptT ε (StateM σ) β} (hx : Always R x) (hf : ∀ a, Always R (f a)) :
    Always R (x >>= f) := by
  intro s r s' hrun
  rcases exec_bind_cases hrun with ⟨e, hfail, -⟩ | ⟨a, s₁, hfirst, hrest⟩
  · exact hx hfail
  · exact IsTrans.trans _ _ _ (hx hfirst) (hf a hrest)

theorem tryCatch {handle : ε → ExceptT ε (StateM σ) α} (hx : Always R x)
    (hh : ∀ e, Always R (handle e)) : Always R (MonadExcept.tryCatch x handle) := by
  intro s r s' hrun
  rw [exec_tryCatch] at hrun
  rcases hfirst : exec x s with ⟨e | a, s₁⟩
  · rw [hfirst] at hrun
    exact IsTrans.trans _ _ _ (hx hfirst) (hh e hrun)
  · rw [hfirst] at hrun
    obtain ⟨-, rfl⟩ := Prod.mk.inj hrun
    exact hx hfirst

theorem forM {γ : Type} {f : γ → ExceptT ε (StateM σ) PUnit} {l : List γ}
    (hf : ∀ c ∈ l, Always R (f c)) : Always R (l.forM f) := by
  induction l with
  | nil => exact pure _
  | cons c l ih =>
      show Always R (f c >>= fun _ => l.forM f)
      exact (hf c List.mem_cons_self).bind fun _ => ih fun d hd => hf d (List.mem_cons_of_mem _ hd)

end Always

end

/-! ### What is ensured -/

section
variable {ε σ α β γ : Type} {I : σ → Prop} {P : α → Prop} {Q : β → Prop}

/-- Whether a program, run in a state with a property, leaves one with that property however it ends,
and gives only results with another. -/
def Ensures (I : σ → Prop) (P : α → Prop) (x : ExceptT ε (StateM σ) α) : Prop :=
  ∀ ⦃s r s'⦄, exec x s = (r, s') → I s → I s' ∧ ∀ a, r = .ok a → P a

namespace Ensures

theorem pure {a : α} (ha : P a) : Ensures I P (Pure.pure a : ExceptT ε (StateM σ) α) := by
  intro s r s' hrun hs
  obtain ⟨rfl, rfl⟩ := Prod.mk.inj hrun
  refine ⟨hs, fun b hb => ?_⟩
  rwa [← Except.ok.inj hb]

theorem throw (e : ε) : Ensures I P (MonadExcept.throw e : ExceptT ε (StateM σ) α) := by
  intro s r s' hrun hs
  obtain ⟨rfl, rfl⟩ := Prod.mk.inj hrun
  exact ⟨hs, fun b hb => by cases hb⟩

theorem get : Ensures I I (MonadState.get : ExceptT ε (StateM σ) σ) := by
  intro s r s' hrun hs
  obtain ⟨rfl, rfl⟩ := Prod.mk.inj hrun
  refine ⟨hs, fun b hb => ?_⟩
  rwa [← Except.ok.inj hb]

theorem bind {x : ExceptT ε (StateM σ) α} {f : α → ExceptT ε (StateM σ) β} (hx : Ensures I P x)
    (hf : ∀ a, P a → Ensures I Q (f a)) : Ensures I Q (x >>= f) := by
  intro s r s' hrun hs
  rcases exec_bind_cases hrun with ⟨e, hfail, rfl⟩ | ⟨a, s₁, hfirst, hrest⟩
  · exact ⟨(hx hfail hs).1, fun b hb => by cases hb⟩
  · obtain ⟨hs₁, ha⟩ := hx hfirst hs
    exact hf a (ha a rfl) hrest hs₁

theorem foldlM {step : β → γ → ExceptT ε (StateM σ) β} {l : List γ}
    (hf : ∀ b, ∀ c ∈ l, Q b → Ensures I Q (step b c)) {b : β} (hb : Q b) :
    Ensures I Q (l.foldlM step b) := by
  induction l generalizing b with
  | nil => exact .pure hb
  | cons c l ih =>
      rw [List.foldlM_cons]
      refine (hf b c List.mem_cons_self hb).bind fun b' hb' => ih (fun b d hd => ?_) hb'
      exact hf b d (List.mem_cons_of_mem _ hd)

theorem mapM {f : γ → ExceptT ε (StateM σ) β} {l : List γ} (hf : ∀ c ∈ l, Ensures I Q (f c)) :
    Ensures I (fun bs => ∀ b ∈ bs, Q b) (l.mapM f) := by
  induction l with
  | nil => exact .pure (fun b hb => by cases hb)
  | cons c l ih =>
      rw [List.mapM_cons]
      refine (hf c List.mem_cons_self).bind fun b hb => ?_
      refine (ih fun d hd => hf d (List.mem_cons_of_mem _ hd)).bind fun bs hbs => .pure ?_
      exact List.forall_mem_cons.mpr ⟨hb, hbs⟩

end Ensures

end

/-! ### Parts of edits -/

namespace Edit

variable {α β : Type} {o o' : Outline} {a : α}

theorem exec_read (f : Outline → Except Violation α) (o : Outline) :
    exec (read f) o = (f o, o) := rfl

theorem exec_read_eq_ok {f : Outline → Except Violation α} :
    exec (read f) o = (.ok a, o') ↔ f o = .ok a ∧ o' = o := by
  rw [exec_read, Prod.mk.injEq, @eq_comm _ o o']

theorem exec_change_eq_ok {f : Outline → Except Violation Outline} :
    exec (change f) o = (.ok (), o') ↔ f o = .ok o' := by
  unfold change
  rw [exec_mk]
  cases f o <;> simp

theorem exec_changeWith_eq_ok {f : Outline → Except Violation (α × Outline)} :
    exec (changeWith f) o = (.ok a, o') ↔ f o = .ok (a, o') := by
  unfold changeWith
  rw [exec_mk]
  rcases f o with e | ⟨b, o₁⟩ <;> simp

theorem eq_of_change_error {f : Outline → Except Violation Outline} {v : Violation}
    (hx : exec (change f) o = (.error v, o')) : o' = o := by
  unfold change at hx
  rw [exec_mk] at hx
  split at hx
  · cases hx
  · exact (Prod.mk.inj hx).2.symm

theorem eq_of_changeWith_error {f : Outline → Except Violation (α × Outline)} {v : Violation}
    (hx : exec (changeWith f) o = (.error v, o')) : o' = o := by
  unfold changeWith at hx
  rw [exec_mk] at hx
  split at hx
  · cases hx
  · exact (Prod.mk.inj hx).2.symm

/-! An edit that starts with one of these parts is refused by it, and then nothing was changed, or the
rest of it runs. -/

theorem exec_read_cases {f : Outline → Except Violation α} {g : α → Edit β} {r : Except Violation β}
    (hx : exec (read f >>= g) o = (r, o')) :
    (∃ v, f o = .error v ∧ r = .error v ∧ o' = o) ∨ ∃ a, f o = .ok a ∧ exec (g a) o = (r, o') := by
  rcases exec_bind_cases hx with ⟨v, hread, rfl⟩ | ⟨a, o₁, hread, hrest⟩
  · obtain ⟨hv, rfl⟩ := Prod.mk.inj hread
    exact Or.inl ⟨v, hv, rfl, rfl⟩
  · obtain ⟨ha, rfl⟩ := exec_read_eq_ok.mp hread
    exact Or.inr ⟨a, ha, hrest⟩

theorem exec_change_cases {f : Outline → Except Violation Outline} {g : Unit → Edit β}
    {r : Except Violation β} (hx : exec (change f >>= g) o = (r, o')) :
    (∃ v, r = .error v ∧ o' = o) ∨ ∃ o₁, f o = .ok o₁ ∧ exec (g ()) o₁ = (r, o') := by
  rcases exec_bind_cases hx with ⟨v, hchange, rfl⟩ | ⟨_, o₁, hchange, hrest⟩
  · exact Or.inl ⟨v, rfl, eq_of_change_error hchange⟩
  · exact Or.inr ⟨o₁, exec_change_eq_ok.mp hchange, hrest⟩

theorem exec_changeWith_cases {f : Outline → Except Violation (α × Outline)} {g : α → Edit β}
    {r : Except Violation β} (hx : exec (changeWith f >>= g) o = (r, o')) :
    (∃ v, r = .error v ∧ o' = o) ∨ ∃ a o₁, f o = .ok (a, o₁) ∧ exec (g a) o₁ = (r, o') := by
  rcases exec_bind_cases hx with ⟨v, hchange, rfl⟩ | ⟨a, o₁, hchange, hrest⟩
  · exact Or.inl ⟨v, rfl, eq_of_changeWith_error hchange⟩
  · exact Or.inr ⟨a, o₁, exec_changeWith_eq_ok.mp hchange, hrest⟩

end Edit

/-! ### Parts of work -/

namespace Workspace

variable {α : Type} {w w' : Workspace} {h : Handle}

theorem exec_read (f : Outline → Except Violation α) (w : Workspace) :
    exec (read f) w = ((f w.outline).mapError .violation, w) := rfl

@[simp] theorem exec_note (level : Level) (origin : Origin) (text : String) (w : Workspace) :
    exec (note level origin text) w =
      (.ok (), { w with notices := w.notices ++ [⟨level, origin, text⟩] }) := rfl

@[simp] theorem exec_make (f : ObjectId → SharedTree) (w : Workspace) :
    exec (make f) w = (.ok (f w.next), { w with next := w.next + 1 }) := rfl

theorem exec_updateItem {i : Item} (hi : w.outline.get? h = some i) (f : Item → Item) :
    exec (updateItem h f) w = (.ok (), { w with outline := w.outline.set h (f i) }) := by
  unfold updateItem Outline.update Outline.item
  rw [exec_mk, hi]
  rfl

theorem exec_edit (e : ExceptT Failure (StateM Outline) α) (w : Workspace) :
    exec (edit e) w = ((exec e w.outline).1, { w with outline := (exec e w.outline).2 }) := rfl

theorem exec_of_edit {e : ExceptT Failure (StateM Outline) α} {r : Except Failure α}
    (hx : exec (edit e) w = (r, w')) : exec e w.outline = (r, w'.outline) := by
  rw [exec_edit] at hx
  obtain ⟨rfl, rfl⟩ := Prod.mk.inj hx
  rfl

end Workspace

end PackageOutline
