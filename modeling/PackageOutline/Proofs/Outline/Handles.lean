import PackageOutline.Proofs.Outline.AllOrNothing
import PackageOutline.Proofs.Outline.Calls

/-! # Handles over time

Slots are used again, handles are not.  A run is kept account of as its caller sees it
(`Outline.Moment`): which handles were returned, each with the kind and the parent that the item was
made with, and which were removed, an item together with all that stood below it.

* `Persists`: what a call does to items that it does not remove.  They stay, with kind and parent, and
  a slot never goes back to an earlier generation (`Call.persists`).
* `Outline.Accounts`: at every moment a handle that was returned is live or of the past, according to
  the account (`HandleRun.accounts`).
* `Call.refused_of_stale`: a call on an item that is not there is refused and changes nothing.
* `HandleRun.handles_never_alias`: what this comes to for whole runs. -/

namespace PackageOutline

namespace Outline

/-- An item as its maker knows it: the handle that was returned, and what the item was made as. -/
structure Made where
  handle : Handle
  kind : Kind
  parent : Handle
deriving DecidableEq, Repr

end Outline

namespace Call

open Outline

/-- The item that a call makes and returns the handle of. -/
def makes (c : Call) (o : Outline) : Option Made :=
  match c with
  | create parent kind name =>
    (exec (Edit.create parent kind name) o).1.toOption.map (⟨·, kind, parent⟩)
  | add parent kind name => (exec (Edit.add parent kind name) o).1.toOption.map (⟨·, kind, parent⟩)
  | _ => none

/-- The items that a call removes: an item with all that stands below it. -/
def removes (c : Call) (o : Outline) : List Handle :=
  match c with
  | remove item => if (exec (Edit.remove item) o).1.isOk then o.family item else []
  | _ => []

/-- The item or parent that a call works on, and the item that it puts below that parent. -/
def about : Call → List Handle
  | create parent .. | add parent .. | move parent .. | reorder parent _ => [parent]
  | attach parent _ item | insert parent _ item => [parent, item]
  | setContents item _ | markDirty item | rename item _ | remove item => [item]
  | image _ item | refresh _ item => [item]
  | commit _ => []

end Call

namespace Outline

/-- A moment of a run, with the account of the handles so far. -/
structure Moment where
  workspace : Workspace
  /-- The number of items released. -/
  released : Nat := 0
  /-- The items whose handles were returned, the last one first. -/
  made : List Made := []
  /-- The handles of the items removed. -/
  gone : List Handle := []

namespace Moment

/-- The outline at a moment. -/
def outline (m : Moment) : Outline := m.workspace.outline

/-- The moment after a call. -/
def next (m : Moment) (c : Call) : Moment where
  workspace := c.after m.workspace
  released := m.released + m.outline.released (c.after m.workspace).outline
  made := (c.makes m.outline).toList ++ m.made
  gone := c.removes m.outline ++ m.gone

/-- The moment after some calls. -/
def after (m : Moment) (calls : List Call) : Moment := calls.foldl next m

end Moment

end Outline

open Outline

/-- Calls of any kind lead from a new outline to a moment. -/
inductive HandleRun : Moment → Prop
  | start (package : String) (document : Option SharedTree) (next : ObjectId)
      (notices : List Notice) :
      HandleRun { workspace := ⟨Outline.new package document, next, notices⟩ }
  | call {m : Moment} (c : Call) : HandleRun m → HandleRun (m.next c)

theorem HandleRun.callRun {m : Moment} (run : HandleRun m) :
    CallRun (fun _ _ => True) m.released m.workspace := by
  induction run with
  | start package document next notices => exact .start package document next notices
  | call c _ ih => exact ih.call c trivial

theorem HandleRun.after {m : Moment} (run : HandleRun m) (calls : List Call) :
    HandleRun (m.after calls) := by
  induction calls generalizing m with
  | nil => exact run
  | cons c calls ih => exact ih (run.call c)

theorem HandleRun.tended {m : Moment} (run : HandleRun m) (hn : m.released < 2 ^ 32) :
    m.outline.Tended m.released :=
  run.callRun.upheld (Tended.upheld _) hn

namespace Outline

variable {o o' o₁ : Outline} {h p x : Handle} {i j : Item} {n : Nat} {m : Moment}

theorem Moment.gone_subset (m : Moment) (calls : List Call) : m.gone ⊆ (m.after calls).gone := by
  induction calls generalizing m with
  | nil => exact fun _ => id
  | cons c calls ih => exact fun x hx => ih (m.next c) (List.mem_append_right _ hx)

/-! ### What persists -/

/-- Items stay, with kind and parent, and what is of the past stays there. -/
structure Persists (o o' : Outline) : Prop where
  live : ∀ {h i}, o.get? h = some i → ∃ i', o'.get? h = some i' ∧ i'.standing = i.standing
  past : ∀ {h}, o.Past h → o'.Past h

instance : IsPreorder Outline Persists where
  refl _ := ⟨fun hi => ⟨_, hi, rfl⟩, id⟩
  trans _ _ _ a b := by
    refine ⟨fun hi => ?_, fun hp => b.past (a.past hp)⟩
    obtain ⟨j, hj, hji⟩ := a.live hi
    obtain ⟨k, hk, hkj⟩ := b.live hj
    exact ⟨k, hk, hkj.trans hji⟩

theorem Alike.persists (a : Alike Item.standing o o') : Persists o o' :=
  ⟨fun hi => a.agree.get?_eq_some hi, a.past⟩

theorem Alike.standing (a : Alike Item.frame o o') : Alike Item.standing o o' :=
  a.comp (fun f => (f.1, f.2.2.1)) fun _ => rfl

/-- A new item takes the place of none. -/
theorem FreeExact.persists (e : o.FreeExact) (ha : o.allocate i = .ok (h, o')) :
    Persists o o' := by
  obtain ⟨new, -⟩ := e.allocate ha
  refine ⟨fun {x k} hk => ⟨k, new.elsewhere hk, rfl⟩, fun {x} ⟨g, hg, hlt⟩ => ⟨g, ?_, hlt⟩⟩
  rw [generation?_allocate e ha, ← hg]
  split
  · rename_i hx
    rcases e.generation_of_allocate ha with hsame | ⟨hnew, -⟩
    · rw [hx, hsame]
    · rw [hx, hnew] at hg
      cases hg
  · rfl

theorem FreeExact.not_past_of_allocate (e : o.FreeExact) (ha : o.allocate i = .ok (h, o')) :
    ¬ o.Past h := by
  rintro ⟨g, hg, hlt⟩
  rcases e.generation_of_allocate ha with hsame | ⟨hnew, -⟩
  · rw [hsame] at hg
    exact absurd (Option.some.inj hg ▸ hlt) (UInt32.lt_irrefl _)
  · rw [hnew] at hg
    cases hg

end Outline

namespace Edit

variable {h p : Handle} {n : Nat}

theorem markDirty_standing (h : Handle) : Always (Alike Item.standing) (markDirty h) :=
  (markDirty_alike h).mono Alike.standing

theorem attach_standing (p : Handle) (index : Nat) (h : Handle) :
    Always (Alike Item.standing) (attach p index h) := by
  refine always_change fun ha => ?_
  obtain ⟨i, j, -, -, hj, -, -, -, rfl⟩ := attach_eq_ok ha
  exact .set hj rfl

theorem insert_standing (p : Handle) (index : Nat) (h : Handle) :
    Always (Alike Item.standing) (insert p index h) :=
  (attach_standing p index h).bind fun _ => markDirty_standing h

theorem setContents_standing (h : Handle) (c : Bytes) :
    Always (Alike Item.standing) (setContents h c) := by
  refine ((always_read _).adapt _).bind fun i => ?_
  split
  · refine Always.adapt (Always.bind ?_ fun _ => markDirty_standing h) _
    exact update_alike (fun i => { i with contents := some c }) (fun _ => rfl) h
  · exact .throw _

theorem rename_standing (h : Handle) (name : String) :
    Always (Alike Item.standing) (rename h name) := by
  have named : Always (Alike Item.standing) (change (·.update h fun i => { i with name }) >>=
      fun _ => markDirty h) :=
    (update_alike (fun i => { i with name }) (fun _ => rfl) h).bind fun _ => markDirty_standing h
  refine (always_read _).bind fun i => (always_read _).bind fun _ => ?_
  split
  · exact ((keepContents_alike h).mono fun a => a.frame.standing).bind fun _ => named
  · exact named

theorem move_standing (p : Handle) (start stop : Nat) :
    Always (Alike Item.standing) (move p start stop) := by
  refine (always_change fun hm => ?_).bind fun _ => markDirty_standing p
  obtain ⟨j, c, hj, -, -, rfl⟩ := moveChild_eq_ok hm
  exact .set hj rfl

theorem reorder_standing (p : Handle) (order : List Handle) :
    Always (Alike Item.standing) (reorder p order) := by
  refine (always_change fun ha => ?_).bind fun _ => markDirty_standing p
  obtain ⟨j, hj, -, rfl⟩ := arrange_eq_ok ha
  exact .set hj rfl

/-- An edit that first makes an item. When that is refused, nothing is done; behind it no item comes or
goes, and the result is the handle of the new item. -/
def Allocates (e : Edit Handle) (p : Handle) (kind : Kind) (name : String) : Prop :=
  ∀ ⦃o r o'⦄, exec e o = (r, o') → o' = o ∧ (∃ v, r = .error v) ∨
    ∃ h o₁, o.create p kind name = .ok (h, o₁) ∧ Alike Item.standing o₁ o' ∧ ∀ h', r = .ok h' → h' = h

theorem allocates_create (p : Handle) (kind : Kind) (name : String) :
    (create p kind name).Allocates p kind name := by
  intro o r o' hx
  cases r with
  | error v => exact Or.inl ⟨eq_of_changeWith_error hx, v, rfl⟩
  | ok h =>
      exact Or.inr ⟨h, o', exec_changeWith_eq_ok.mp hx, refl o', fun _ hr => (Except.ok.inj hr).symm⟩

theorem allocates_add (p : Handle) (kind : Kind) (name : String) :
    (add p kind name).Allocates p kind name := by
  intro o r o' hx
  rcases exec_changeWith_cases hx with ⟨v, hr, ho⟩ | ⟨h, o₁, hcreate, hrest⟩
  · exact Or.inl ⟨ho, v, hr⟩
  · refine Or.inr ⟨h, o₁, hcreate, ?_, fun h' hr => ?_⟩
    · have rest : Always (Alike Item.standing) (read (·.item p) >>= fun above =>
          insert p above.children.length h >>= fun _ => pure h) :=
        (always_read _).bind fun above => (insert_standing p _ h).bind fun _ => .pure h
      exact rest hrest
    · subst hr
      obtain ⟨above, o₂, -, hrest⟩ := exec_bind_eq_ok.mp hrest
      obtain ⟨-, o₃, -, hpure⟩ := exec_bind_eq_ok.mp hrest
      exact (Except.ok.inj (Prod.mk.inj hpure).1).symm

end Edit

namespace Outline

variable {o : Outline} {p : Handle} {a : Made}

/-- An item that is new: its handle was never live and is not of the past, and now it is there, as it
was made. -/
structure Made.New (a : Made) (o o' : Outline) : Prop where
  unknown : o.get? a.handle = none
  notPast : ¬ o.Past a.handle
  now : ∃ i, o'.get? a.handle = some i ∧ i.kind = a.kind ∧ i.parent = some a.parent

theorem WellFormed.persists_of_allocates {e : Edit Handle} {kind : Kind} {name : String}
    (w : o.WellFormed) (he : e.Allocates p kind name) : Persists o (exec e o).2 ∧
      ∀ a : Made, (exec e o).1.toOption.map (⟨·, kind, p⟩) = some a → a.New o (exec e o).2 := by
  rcases hx : exec e o with ⟨r, o'⟩
  rcases he hx with ⟨rfl, v, rfl⟩ | ⟨h, o₁, hcreate, hrest, hr⟩
  · exact ⟨refl o', fun a ha => by cases ha⟩
  obtain ⟨-, halloc⟩ := create_eq_ok hcreate
  obtain ⟨new, -⟩ := w.free.allocate halloc
  refine ⟨IsTrans.trans _ _ _ (w.free.persists halloc) hrest.persists, fun a ha => ?_⟩
  obtain ⟨h', hr', rfl⟩ := Option.map_eq_some_iff.mp ha
  obtain rfl := hr h' (toOption_eq_some.mp hr')
  obtain ⟨i, hi, hf⟩ := hrest.agree.get?_eq_some new.self
  exact ⟨new.fresh, w.free.not_past_of_allocate halloc, i, hi, Item.standing_eq_iff.mp hf⟩

end Outline

namespace Call

variable {c : Call} {h : Handle} {n : Nat} {W : Workspace}

theorem standing_after (hcreate : ∀ p kind name, c ≠ .create p kind name)
    (hadd : ∀ p kind name, c ≠ .add p kind name) (hremove : ∀ h, c ≠ .remove h) :
    Alike Item.standing W.outline (c.after W).outline := by
  cases c with
  | create p kind name => exact absurd rfl (hcreate p kind name)
  | add p kind name => exact absurd rfl (hadd p kind name)
  | attach p index h => exact Upheld.always_work (Edit.attach_standing p index h) W
  | insert p index h => exact Upheld.always_work (Edit.insert_standing p index h) W
  | setContents h c => exact Edit.setContents_standing h c (Workspace.exec_of_edit rfl)
  | markDirty h => exact Upheld.always_work (Edit.markDirty_standing h) W
  | rename h name => exact Upheld.always_work (Edit.rename_standing h name) W
  | remove h => exact absurd rfl (hremove h)
  | move p start stop => exact Upheld.always_work (Edit.move_standing p start stop) W
  | reorder p order => exact Upheld.always_work (Edit.reorder_standing p order) W
  | image held h =>
      have a : Workspace.Alike look W ((Call.image held h).after W) :=
        ((Workspace.image_alike h).bind fun _ => .pure ()) rfl
      exact (Outline.Alike.frame a).standing
  | refresh held h =>
      have f : Workspace.Faded W ((Call.refresh held h).after W) :=
        ((Workspace.refresh_faded h).bind fun _ => .pure ()) rfl
      exact f.alike.standing
  | commit document => exact ⟨⟨rfl, rfl, fun _ => rfl⟩, fun _ => rfl⟩

/-- Calls other than removals: all items stay, and what is made is new. -/
theorem persists (w : W.outline.WellFormed) (hc : ∀ h, c ≠ .remove h) :
    Persists W.outline (c.after W).outline ∧
      ∀ a, c.makes W.outline = some a → a.New W.outline (c.after W).outline := by
  have making : ∀ {e : Edit Handle} {p kind name}, e.Allocates p kind name →
      Persists W.outline (exec e.work W).2.outline ∧
      ∀ a : Made, (exec e W.outline).1.toOption.map (⟨·, kind, p⟩) = some a →
        a.New W.outline (exec e.work W).2.outline := by
    intro e p kind name he
    have hwork : (exec e.work W).2.outline = (exec e W.outline).2 :=
      exec_bind_pure_snd e () W.outline
    rw [hwork]
    exact w.persists_of_allocates he
  by_cases hcreate : ∃ p kind name, c = .create p kind name
  · obtain ⟨p, kind, name, rfl⟩ := hcreate
    exact making (Edit.allocates_create p kind name)
  by_cases hadd : ∃ p kind name, c = .add p kind name
  · obtain ⟨p, kind, name, rfl⟩ := hadd
    exact making (Edit.allocates_add p kind name)
  have a := standing_after (W := W) (fun p kind name he => hcreate ⟨p, kind, name, he⟩)
    (fun p kind name he => hadd ⟨p, kind, name, he⟩) hc
  refine ⟨a.persists, fun a ha => ?_⟩
  cases c with
  | create p kind name => exact absurd ⟨p, kind, name, rfl⟩ hcreate
  | add p kind name => exact absurd ⟨p, kind, name, rfl⟩ hadd
  | _ => cases ha

end Call

namespace Outline

variable {o o' : Outline} {h : Handle} {n : Nat} {m : Moment}

/-! ### What is removed -/

/-- What was removed is of the past, and so is what was before. -/
theorem Removed.past (q : Removed h o o') (t : Tended n o) (hn : n + o.released o' < 2 ^ 32) :
    (∀ x ∈ o.family h, o'.Past x) ∧ ∀ x, o.Past x → o'.Past x := by
  obtain ⟨i, hi⟩ := q.live
  obtain ⟨o₁, o₂, before, w₁, rel, behind⟩ := q.releases
  have hpos := released_pos hi (q.gone h (t.tree.self_mem_family hi))
  have hn₁ : n + 1 < 2 ^ 32 := Nat.lt_of_le_of_lt (Nat.add_le_add_left hpos n) hn
  have bounded : ∀ {x k}, o₁.get? x = some k → x.generation.toNat ≤ n := by
    intro x k hk
    obtain ⟨k₀, hk₀, -⟩ := before.agree.symm.get?_eq_some hk
    exact t.bounded (generation?_of_get? hk₀)
  refine ⟨fun x hx => behind.past ?_, fun x hx => behind.past ?_⟩
  · obtain ⟨k, hk⟩ := t.tree.live_of_mem_family hi hx
    obtain ⟨k₁, hk₁, -⟩ := before.agree.get?_eq_some hk
    refine rel.past_of_gone w₁ hn₁ bounded hk₁ ?_
    have hnone := behind.agree.get x
    rw [q.gone x hx] at hnone
    exact Option.map_eq_none_iff.mp hnone.symm
  · exact rel.past w₁ hn₁ bounded (before.past hx)

/-! ### Accounts -/

/-- The account is right: what was returned and not removed is there as it was made, and what was
removed is of the past. -/
structure Accounts (m : Moment) : Prop where
  live : ∀ a ∈ m.made, a.handle ∉ m.gone →
    ∃ i, m.outline.get? a.handle = some i ∧ i.kind = a.kind ∧ i.parent = some a.parent
  past : ∀ h ∈ m.gone, m.outline.Past h

theorem Accounts.contains_iff (acc : Accounts m) {a : Made} (ha : a ∈ m.made) :
    m.outline.contains a.handle = true ↔ a.handle ∉ m.gone := by
  constructor
  · intro hc hg
    rw [contains, get?_of_past (acc.past _ hg)] at hc
    cases hc
  · intro hg
    obtain ⟨i, hi, -⟩ := acc.live a ha hg
    rw [contains, hi]
    rfl

theorem Accounts.ne_of_new (acc : Accounts m) {a b : Made} (new : a.New m.outline o')
    (hb : b ∈ m.made) : b.handle ≠ a.handle := by
  intro hba
  by_cases hg : b.handle ∈ m.gone
  · exact new.notPast (hba ▸ acc.past _ hg)
  · obtain ⟨i, hi, -⟩ := acc.live b hb hg
    rw [hba, new.unknown] at hi
    cases hi

theorem Moment.next_remove (m : Moment) {r : Except Violation Unit}
    (hx : exec (Edit.remove h) m.outline = (r, o')) : (m.next (.remove h)).outline = o' ∧
      (m.next (.remove h)).gone = (if r.isOk then m.outline.family h else []) ++ m.gone := by
  refine ⟨(exec_bind_pure_snd (Edit.remove h) () m.outline).trans (congrArg Prod.snd hx), ?_⟩
  show (if (exec (Edit.remove h) m.outline).1.isOk then m.outline.family h else []) ++ m.gone = _
  rw [hx]

theorem Moment.gone_next (m : Moment) {c : Call} (hc : ∀ h, c ≠ .remove h) :
    (m.next c).gone = m.gone := by
  cases c with
  | remove h => exact absurd rfl (hc h)
  | _ => rfl

theorem Accounts.call {c : Call} (acc : Accounts m) (t : m.outline.Tended n)
    (hc : ∀ h, c ≠ .remove h) : Accounts (m.next c) := by
  obtain ⟨hp, hnew⟩ := Call.persists t.tree hc
  have hgone := m.gone_next hc
  refine ⟨fun a ha hg => ?_, fun h hh => hp.past (acc.past h (hgone ▸ hh))⟩
  rcases List.mem_append.mp ha with ha | ha
  · exact (hnew a (Option.mem_toList.mp ha)).now
  · obtain ⟨i, hi, hk, hpar⟩ := acc.live a ha (hgone ▸ hg)
    obtain ⟨i', hi', hs⟩ := hp.live hi
    obtain ⟨hkind, hparent⟩ := Item.standing_eq_iff.mp hs
    exact ⟨i', hi', hkind.trans hk, hparent.trans hpar⟩

theorem Accounts.remove (acc : Accounts m) (t : m.outline.Tended m.released)
    (hn : (m.next (.remove h)).released < 2 ^ 32) : Accounts (m.next (.remove h)) := by
  rcases hx : exec (Edit.remove h) m.outline with ⟨r, o'⟩
  obtain ⟨hafter, hgone⟩ := m.next_remove hx
  rcases t.tree.remove_refused_or_done hx with ⟨⟨v, rfl⟩, ho⟩ | ⟨rfl, q⟩
  · refine ⟨fun a ha hg => ?_, fun x hx => ?_⟩
    · rw [hafter, ho]
      exact acc.live a ha fun hga => hg (hgone ▸ hga)
    · rw [hafter, ho]
      exact acc.past x (hgone ▸ hx : x ∈ [] ++ m.gone)
  · have hn : m.released + m.outline.released o' < 2 ^ 32 := hafter ▸ hn
    obtain ⟨hfamily, hpast⟩ := q.past t hn
    refine ⟨fun a ha hg => ?_, fun x hx => ?_⟩
    · rw [hgone, List.mem_append, not_or] at hg
      obtain ⟨i, hi, hk, hp⟩ := acc.live a ha hg.2
      have hstem := q.rest a.handle hg.1
      rw [hi, Option.map_some] at hstem
      obtain ⟨i', hi', hf⟩ := Option.map_eq_some_iff.mp hstem
      obtain ⟨hkind, -, hparent⟩ := Item.stem_eq_iff.mp hf
      exact ⟨i', hafter ▸ hi', hkind.trans hk, hparent.trans hp⟩
    · rw [hafter]
      rw [hgone] at hx
      rcases List.mem_append.mp hx with hx | hx
      · exact hfamily x hx
      · exact hpast x (acc.past x hx)

end Outline

/-- At every moment of a run the account is right. -/
theorem HandleRun.accounts {m : Moment} (run : HandleRun m) (hn : m.released < 2 ^ 32) :
    Accounts m := by
  induction run with
  | start package document next notices => exact ⟨fun a ha => (by cases ha), fun h hh => (by cases hh)⟩
  | @call m c run ih =>
      have hless : m.released < 2 ^ 32 := Nat.lt_of_le_of_lt (Nat.le_add_right _ _) hn
      by_cases hc : ∃ h, c = .remove h
      · obtain ⟨h, rfl⟩ := hc
        exact (ih hless).remove (run.tended hless) hn
      · exact (ih hless).call (run.tended hless) fun h he => hc ⟨h, he⟩

/-! ### Handles that lead nowhere -/

namespace Outline

variable {o : Outline} {h : Handle}

theorem item_of_stale (hnone : o.get? h = none) : o.item h = .error (.missing h) := by
  rw [item, hnone]

theorem lineage_of_stale (hnone : o.get? h = none) : o.lineage h = .error (.missing h) := by
  unfold lineage
  cases o.itemCount <;> · unfold climb; rw [item_of_stale hnone]; rfl

/-- Whoever asks about an item that is not there gets no answer. -/
theorem queries_of_stale (hnone : o.get? h = none) :
    o.item h = .error (.missing h) ∧ o.relativePath h = .error (.missing h) ∧
      o.diskNames h = .error (.missing h) ∧ o.walk h = .error (.missing h) ∧
      ∀ name, o.child? h name = .error (.missing h) := by
  refine ⟨item_of_stale hnone, ?_, ?_, ?_, fun name => ?_⟩
  · rw [relativePath, lineage_of_stale hnone]
    rfl
  · rw [diskNames, lineage_of_stale hnone]
    rfl
  · rw [walk, walkPending, item_of_stale hnone]
    rfl
  · rw [child?, item_of_stale hnone]
    rfl

end Outline

namespace Edit

variable {α β : Type} {o : Outline} {h : Handle} {e : Edit α}

/-- The edit is refused at once: nothing is changed. -/
def Refused (e : Edit α) (o : Outline) : Prop := ∃ v, exec e o = (.error v, o)

theorem Refused.bind (he : e.Refused o) (f : α → Edit β) : (e >>= f).Refused o := by
  obtain ⟨v, hv⟩ := he
  exact ⟨v, exec_bind_of_error hv⟩

theorem Refused.work {W : Workspace} (he : e.Refused W.outline) :
    ∃ v, exec e.work W = (.error (.violation v), W) := by
  obtain ⟨v, hv⟩ := he.bind fun _ => pure ()
  refine ⟨v, ?_⟩
  unfold Edit.work
  rw [Workspace.exec_edit, exec_adapt, hv]
  rfl

theorem refused_change {f : Outline → Except Violation Outline} (hf : ∀ o', f o ≠ .ok o') :
    (change f).Refused o := by
  unfold Refused change
  rw [exec_mk]
  cases hfo : f o with
  | ok o' => exact absurd hfo (hf o')
  | error v => exact ⟨v, rfl⟩

theorem refused_changeWith {f : Outline → Except Violation (α × Outline)}
    (hf : ∀ a o', f o ≠ .ok (a, o')) : (changeWith f).Refused o := by
  unfold Refused changeWith
  rw [exec_mk]
  cases hfo : f o with
  | ok b => exact absurd hfo (hf b.1 b.2)
  | error v => exact ⟨v, rfl⟩

theorem refused_read (hnone : o.get? h = none) : (read (·.item h)).Refused o :=
  ⟨.missing h, by rw [exec_read, item_of_stale hnone]⟩

end Edit

/-- A call on an item that is not there is refused and changes nothing. -/
theorem Call.refused_of_stale {c : Call} {W : Workspace} {h : Handle} (w : W.outline.WellFormed)
    (hnone : W.outline.get? h = none) (hc : h ∈ c.about) :
    ∃ v, exec c.work W = (.error (.violation v), W) := by
  have gone : ∀ {x i}, W.outline.get? x = some i → h ≠ x := by
    rintro x i hi rfl
    rw [hnone] at hi
    cases hi
  have create : ∀ {kind name}, (Edit.create h kind name).Refused W.outline := by
    refine Edit.refused_changeWith fun x o' hcreate => ?_
    obtain ⟨-, -, j, hj, -⟩ := checkPlacement_eq_ok (create_eq_ok hcreate).1
    exact gone hj rfl
  have attach : ∀ {p index x}, h ∈ [p, x] → (Edit.attach p index x).Refused W.outline := by
    intro p index x hmem
    refine Edit.refused_change fun o' hattach => ?_
    obtain ⟨i, j, hi, -, hj, -⟩ := attach_eq_ok hattach
    rcases List.mem_pair.mp hmem with hp | hx
    · exact gone hj hp
    · exact gone hi hx
  have hread : exec (Workspace.read (·.item h)) W = (.error (.violation (.missing h)), W) := by
    rw [Workspace.exec_read, item_of_stale hnone]
    rfl
  cases c with
  | create p kind name =>
      obtain rfl := List.mem_singleton.mp hc
      exact create.work
  | add p kind name =>
      obtain rfl := List.mem_singleton.mp hc
      exact (create.bind _).work
  | attach p index x => exact (attach hc).work
  | insert p index x => exact ((attach hc).bind _).work
  | setContents x c =>
      obtain rfl := List.mem_singleton.mp hc
      refine ⟨.missing h, ?_⟩
      show exec (Workspace.edit (Edit.setContents h c)) W = _
      unfold Edit.setContents
      rw [Workspace.exec_edit, exec_bind, exec_adapt, Edit.exec_read, item_of_stale hnone]
      rfl
  | markDirty x =>
      obtain rfl := List.mem_singleton.mp hc
      obtain ⟨r, hr, -⟩ := w.root
      obtain ⟨steps, hsteps⟩ : ∃ steps, W.outline.slots.size = steps + 1 :=
        ⟨W.outline.slots.size - 1, by have := index_lt_of_get? hr; omega⟩
      refine Edit.Refused.work ?_
      unfold Edit.markDirty Edit.Refused
      rw [exec_bind_of_ok (exec_get _), hsteps]
      exact (Edit.refused_read hnone).bind _
  | rename x name =>
      obtain rfl := List.mem_singleton.mp hc
      exact ((Edit.refused_read hnone).bind _).work
  | remove x =>
      obtain rfl := List.mem_singleton.mp hc
      refine ((Edit.refused_changeWith fun p o' hdetach => ?_).bind _).work
      obtain ⟨i, j, hi, -⟩ := detach_eq_ok hdetach
      exact gone hi rfl
  | move p start stop =>
      obtain rfl := List.mem_singleton.mp hc
      refine ((Edit.refused_change fun o' hm => ?_).bind _).work
      obtain ⟨j, c, hj, -⟩ := moveChild_eq_ok hm
      exact gone hj rfl
  | reorder p order =>
      obtain rfl := List.mem_singleton.mp hc
      refine ((Edit.refused_change fun o' ha => ?_).bind _).work
      obtain ⟨j, hj, -⟩ := arrange_eq_ok ha
      exact gone hj rfl
  | image held x =>
      obtain rfl := List.mem_singleton.mp hc
      refine ⟨.missing h, exec_bind_of_error ?_⟩
      unfold Workspace.image
      rw [exec_bind_of_ok (exec_get W)]
      exact exec_bind_of_error hread
  | refresh held x =>
      obtain rfl := List.mem_singleton.mp hc
      refine ⟨.missing h, exec_bind_of_error ?_⟩
      unfold Workspace.refresh
      rw [exec_bind_of_ok (exec_get W)]
      exact exec_bind_of_error hread
  | commit document => cases hc

/-- As long as fewer items are released than a slot has generations: a handle that is returned is new;
the items of returned handles are there until they are removed, as they were made; and whatever is
called later, a removed handle leads nowhere and calls on it are refused and change nothing. -/
theorem HandleRun.handles_never_alias {m : Moment} (run : HandleRun m)
    (hn : m.released < 2 ^ 32) :
    (∀ c a, c.makes m.outline = some a →
      a.handle ≠ root ∧ (∀ b ∈ m.made, b.handle ≠ a.handle) ∧ a.handle ∉ m.gone ∧
        (m.next c).outline.contains a.handle = true) ∧
    (∀ a ∈ m.made, (m.outline.contains a.handle = true ↔ a.handle ∉ m.gone) ∧
      ∀ i, m.outline.get? a.handle = some i → i.kind = a.kind ∧ i.parent = some a.parent) ∧
    ∀ h ∈ m.gone, ∀ calls, (m.after calls).released < 2 ^ 32 →
      (m.after calls).outline.get? h = none ∧ (m.after calls).outline.contains h = false ∧
      ((m.after calls).outline.relativePath h = .error (.missing h) ∧
        (m.after calls).outline.diskNames h = .error (.missing h) ∧
        (m.after calls).outline.item h = .error (.missing h) ∧
        (m.after calls).outline.walk h = .error (.missing h) ∧
        ∀ name, (m.after calls).outline.child? h name = .error (.missing h)) ∧
      ∀ c : Call, h ∈ c.about → ∃ v,
        exec c.work (m.after calls).workspace = (.error (.violation v), (m.after calls).workspace) := by
  have t := run.tended hn
  have acc := run.accounts hn
  refine ⟨fun c a ha => ?_, fun a ha => ⟨acc.contains_iff ha, fun i hi => ?_⟩,
    fun h hh calls hn' => ?_⟩
  · have hc : ∀ h, c ≠ .remove h := by
      rintro h rfl
      cases ha
    have new := (Call.persists t.tree hc).2 a ha
    refine ⟨fun hroot => ?_, fun b hb => acc.ne_of_new new hb, fun hg => new.notPast (acc.past _ hg), ?_⟩
    · obtain ⟨r, hr, -⟩ := t.tree.root
      rw [← hroot] at hr
      cases new.unknown.symm.trans hr
    · obtain ⟨i, hi, -⟩ := new.now
      show (c.after m.workspace).outline.contains a.handle = true
      rw [contains, hi]
      rfl
  · have hg : a.handle ∉ m.gone := (acc.contains_iff ha).mp (by rw [contains, hi]; rfl)
    obtain ⟨k, hk, hkind, hparent⟩ := acc.live a ha hg
    rw [hi] at hk
    rw [Option.some.inj hk]
    exact ⟨hkind, hparent⟩
  · have run' := run.after calls
    have hnone := get?_of_past ((run'.accounts hn').past h (m.gone_subset calls hh))
    obtain ⟨hitem, hpath, hnames, hwalk, hchild⟩ := queries_of_stale hnone
    exact ⟨hnone, by rw [contains, hnone]; rfl, ⟨hpath, hnames, hitem, hwalk, hchild⟩,
      fun c hc => Call.refused_of_stale (run'.tended hn').tree hnone hc⟩

/-- A folder is removed with the file in it, and the slot of the file is used again. -/
theorem HandleRun.handles_never_alias_of_reused_slot : ∃ m : Moment, HandleRun m ∧
    m.released < 2 ^ 32 ∧ m.gone = [⟨2, 0⟩, ⟨3, 0⟩] ∧ ⟨⟨3, 0⟩, .file, ⟨2, 0⟩⟩ ∈ m.made ∧
    ⟨⟨3, 1⟩, .folder, ⟨1, 0⟩⟩ ∈ m.made ∧ m.outline.contains ⟨3, 0⟩ = false ∧
    m.outline.contains ⟨3, 1⟩ = true ∧
    (∀ i, m.outline.get? ⟨3, 1⟩ = some i → i.kind = .folder ∧ i.parent = some ⟨1, 0⟩) ∧
    (∃ v, exec (Call.rename ⟨3, 0⟩ "b").work m.workspace = (.error (.violation v), m.workspace)) ∧
    ∃ a, (Call.create ⟨3, 1⟩ .file "c").makes m.outline = some a ∧ a.handle ≠ ⟨2, 0⟩ := by
  obtain ⟨m, run, hreleased, hgone, hold, hnew, hmakes⟩ : ∃ m : Moment, HandleRun m ∧
      m.released = 2 ∧ m.gone = [⟨2, 0⟩, ⟨3, 0⟩] ∧ ⟨⟨3, 0⟩, .file, ⟨2, 0⟩⟩ ∈ m.made ∧
      ⟨⟨3, 1⟩, .folder, ⟨1, 0⟩⟩ ∈ m.made ∧
      ((Call.create ⟨3, 1⟩ .file "c").makes m.outline).isSome :=
    ⟨_, (HandleRun.start "P" none 0 []).after [.add root .group "Package",
      .add ⟨1, 0⟩ .folder "d", .add ⟨2, 0⟩ .file "a", .remove ⟨2, 0⟩, .add ⟨1, 0⟩ .folder "e"],
      by decide +kernel⟩
  have hn : m.released < 2 ^ 32 := by rw [hreleased]; decide
  obtain ⟨fresh, stays, refused⟩ := run.handles_never_alias hn
  obtain ⟨hcontains, hmade⟩ := stays _ hnew
  obtain ⟨-, hlost, -, hcalls⟩ := refused ⟨3, 0⟩ (by rw [hgone]; decide) [] hn
  obtain ⟨a, ha⟩ := Option.isSome_iff_exists.mp hmakes
  refine ⟨m, run, hn, hgone, hold, hnew, hlost, hcontains.mpr (by rw [hgone]; decide), hmade,
    hcalls (.rename ⟨3, 0⟩ "b") (by decide), a, ha, fun h => (fresh _ a ha).2.2.1 ?_⟩
  rw [h, hgone]
  decide

end PackageOutline
