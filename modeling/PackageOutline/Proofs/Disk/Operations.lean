import PackageOutline.Proofs.Disk.Rereading
import PackageOutline.Proofs.Disk.ShortCut

/-! # Operations

Writing a tree to disk makes directories and writes files one after the other, until one of these
operations fails (`exec_writeWith_operations`).  Which operations these are depends on the tree and the
tree before, but not on the disk, and not on labels (`operations_plain`).

At the places that it touches, an operation that ends well leaves the same whatever was there
(`Operation.view_of_ok`); elsewhere it leaves everything as it was.  So operations that were interrupted
may be started again from the first one: when they end well then, the disk looks as if nothing had
happened (`Performs.view_eq`). -/

namespace PackageOutline

namespace Disk

/-- What writing asks of the system. -/
inductive Operation where
  | makeDirs (p : Path)
  | setFile (p : Path) (contents : Bytes)
deriving DecidableEq, Repr

namespace Operation

/-- What the operation does to a disk. -/
def change : Operation → Change Unit
  | makeDirs p => Disk.makeDirs p
  | setFile p c => Disk.setFile p c

/-- The error of writing that the failure of the operation comes to. -/
def error : Operation → IoError → DiskError
  | makeDirs p, e => ⟨.makeDir, p, e⟩
  | setFile p _, e => ⟨.write, p, e⟩

/-- Whether the operation leaves something at a place; the empty path stands for the top, which is
there. -/
def Touches : Operation → List Bytes → Prop
  | makeDirs p, place => p.bytes ≠ [] ∧ p.OnWay place
  | setFile p _, place => place = p.place

/-- What the operation leaves at the places that it touches. -/
def shows : Operation → View
  | makeDirs _ => .directory
  | setFile _ c => .file c

end Operation

variable {α β : Type}

mutual

/-- The operations of writing a tree to a path where `previous` is, if anything. -/
def operations (isSame : Tree β → Tree α → Bool) (previous : Option (Tree β)) :
    Tree α → Path → List Operation
  | .file _ c, p => if previous.bind Tree.contents? = some c then [] else [.setFile p c]
  | .dir l es, p =>
    if previous.any (isSame · (.dir l es)) then []
    else .makeDirs p :: operationsAll isSame previous es p

/-- The operations of writing entries below a path where `previous` is, if anything. -/
def operationsAll (isSame : Tree β → Tree α → Bool) (previous : Option (Tree β)) :
    List (String × Tree α) → Path → List Operation
  | [], _ => []
  | (name, t) :: es, p =>
    operations isSame (previous.bind fun a => a.entry? name) t (p.join (Utf8.encode name)) ++
      operationsAll isSame previous es p

end

mutual

/-- The summary of writing a tree, when it ends well. -/
def tally (isSame : Tree β → Tree α → Bool) (previous : Option (Tree β)) : Tree α → Summary
  | .file _ c =>
    if previous.bind Tree.contents? = some c then { unchanged := 1 } else { written := 1 }
  | .dir l es =>
    if previous.any (isSame · (.dir l es)) then { unchanged := (Tree.dir l es).fileCount }
    else tallyAll isSame previous es

/-- The summary of writing entries, when it ends well. -/
def tallyAll (isSame : Tree β → Tree α → Bool) (previous : Option (Tree β)) :
    List (String × Tree α) → Summary
  | [] => {}
  | (name, t) :: es => (tally isSame (previous.bind fun a => a.entry? name) t).add
      (tallyAll isSame previous es)

end

/-- All of some operations end well, one after the other. -/
inductive Performs : List Operation → Disk → Disk → Prop
  | nil {d : Disk} : Performs [] d d
  | cons {op : Operation} {ops : List Operation} {d d₁ d' : Disk} :
      exec op.change d = (.ok (), d₁) → Performs ops d₁ d' → Performs (op :: ops) d d'

/-- One of some operations fails, after those before it ended well. -/
inductive Stops : List Operation → Disk → DiskError → Disk → Prop
  | here {op : Operation} {ops : List Operation} {d d' : Disk} {e : IoError} :
      exec op.change d = (.error e, d') → Stops (op :: ops) d (op.error e) d'
  | later {op : Operation} {ops : List Operation} {d d₁ d' : Disk} {e : DiskError} :
      exec op.change d = (.ok (), d₁) → Stops ops d₁ e d' → Stops (op :: ops) d e d'

variable {isSame : Tree β → Tree α → Bool} {previous : Option (Tree β)} {t : Tree α}
  {es : List (String × Tree α)} {op : Operation} {ops ops' : List Operation}
  {d d' d₁ d₂ : Disk} {e : DiskError} {p : Path} {place : List Bytes} {s s' : Log}
  {r : Except DiskError Summary} {summary : Summary}

/-! ### Writing does its operations -/

theorem performs_append : Performs (ops ++ ops') d d' ↔
    ∃ d₁, Performs ops d d₁ ∧ Performs ops' d₁ d' := by
  constructor
  · intro h
    induction ops generalizing d with
    | nil => exact ⟨d, .nil, h⟩
    | cons op ops ih =>
        cases h with
        | cons hop hrest =>
            obtain ⟨d₁, hfirst, hlast⟩ := ih hrest
            exact ⟨d₁, .cons hop hfirst, hlast⟩
  · rintro ⟨d₁, hfirst, hlast⟩
    induction hfirst with
    | nil => exact hlast
    | cons hop _ ih => exact .cons hop (ih hlast)

theorem Stops.append_right (h : Stops ops d e d') (ops' : List Operation) :
    Stops (ops ++ ops') d e d' := by
  induction h with
  | here hop => exact .here hop
  | later hop _ ih => exact .later hop ih

theorem Performs.append_stops (h : Performs ops d d₁) (hs : Stops ops' d₁ e d') :
    Stops (ops ++ ops') d e d' := by
  induction h with
  | nil => exact hs
  | cons hop _ ih => exact .later hop (ih hs)

theorem Performs.not_stops (h : Performs ops d d₁) : ¬ Stops ops d e d₂ := by
  intro hs
  induction h with
  | nil => cases hs
  | cons hop _ ih =>
      cases hs with
      | here hop' =>
          rw [hop] at hop'
          cases (Prod.mk.inj hop').1
      | later hop' hs =>
          rw [hop] at hop'
          obtain ⟨-, rfl⟩ := Prod.mk.inj hop'
          exact ih hs

theorem Performs.unique (h : Performs ops d d₁) (h' : Performs ops d d₂) : d₁ = d₂ := by
  induction h with
  | nil =>
      cases h'
      rfl
  | cons hop _ ih =>
      cases h' with
      | cons hop' hrest =>
          rw [hop] at hop'
          obtain ⟨-, rfl⟩ := Prod.mk.inj hop'
          exact ih hrest

theorem Stops.unique {e' : DiskError} (h : Stops ops d e d₁) (h' : Stops ops d e' d₂) :
    e = e' ∧ d₁ = d₂ := by
  induction h with
  | here hop =>
      cases h' with
      | here hop' =>
          rw [hop] at hop'
          obtain ⟨he, rfl⟩ := Prod.mk.inj hop'
          rw [Except.error.inj he]
          exact ⟨rfl, rfl⟩
      | later hop' _ =>
          rw [hop] at hop'
          cases (Prod.mk.inj hop').1
  | later hop _ ih =>
      cases h' with
      | here hop' =>
          rw [hop] at hop'
          cases (Prod.mk.inj hop').1
      | later hop' hrest =>
          rw [hop] at hop'
          obtain ⟨-, rfl⟩ := Prod.mk.inj hop'
          exact ih hrest

/-- What a run of writing comes to: all operations ended well, or one of them failed. -/
def Came (ops : List Operation) (summary : Summary) (d : Disk) (r : Except DiskError Summary)
    (d' : Disk) : Prop :=
  (r = .ok summary ∧ Performs ops d d') ∨ ∃ e, r = .error e ∧ Stops ops d e d'

mutual

/-- Writing a tree does the operations, until one fails. -/
theorem exec_writeWith_operations (isSame : Tree β → Tree α → Bool) : ∀ (t : Tree α)
    {previous : Option (Tree β)} {p : Path} {s s' : Log} {r : Except DiskError Summary},
    exec (writeWith isSame previous t p) s = (r, s') →
      Came (operations isSame previous t p) (tally isSame previous t) s.disk r s'.disk
  | .file l c, previous, p, s, s', r, hx => by
    rw [operations, tally]
    rcases exec_writeWith_file_cases hx with ⟨hsame, rfl, rfl⟩ | ⟨hother, r', hset, rfl⟩
    · rw [if_pos hsame, if_pos hsame]
      exact .inl ⟨rfl, .nil⟩
    · rw [if_neg hother, if_neg hother]
      have hop : exec (Operation.setFile p c).change s.disk = (r', s'.disk) := hset
      cases r' with
      | error e => exact .inr ⟨_, rfl, .here hop⟩
      | ok u => exact .inl ⟨rfl, .cons hop .nil⟩
  | .dir l es, previous, p, s, s', r, hx => by
    rw [operations, tally]
    by_cases hsame : previous.any (isSame · (.dir l es)) = true
    · rw [if_pos hsame, if_pos hsame]
      rw [writeWith, exec_ite, if_pos hsame, exec_bind_of_ok (exec_note ..)] at hx
      obtain ⟨rfl, rfl⟩ := Prod.mk.inj hx
      exact .inl ⟨rfl, .nil⟩
    · rw [if_neg hsame, if_neg hsame]
      rcases exec_writeWith_dir hx with ⟨a, rfl, ha, -, -⟩ | ⟨e, hmade, rfl⟩ | ⟨s₁, hmade, hall⟩
      · exact absurd ha hsame
      · have hop : exec (Operation.makeDirs p).change s.disk = (.error e, s'.disk) := hmade
        exact .inr ⟨_, rfl, .here hop⟩
      · have hop : exec (Operation.makeDirs p).change s.disk = (.ok (), s₁.disk) := hmade
        rcases exec_writeEntries_operations isSame es hall with ⟨hr, h⟩ | ⟨e, hr, h⟩
        · exact .inl ⟨hr, .cons hop h⟩
        · exact .inr ⟨e, hr, .later hop h⟩

/-- Writing entries does the operations, until one fails. -/
theorem exec_writeEntries_operations (isSame : Tree β → Tree α → Bool) :
    ∀ (es : List (String × Tree α)) {previous : Option (Tree β)} {p : Path} {s s' : Log}
    {r : Except DiskError Summary}, exec (writeEntries isSame previous es p) s = (r, s') →
      Came (operationsAll isSame previous es p) (tallyAll isSame previous es) s.disk r s'.disk
  | [], previous, p, s, s', r, hx => by
    rw [writeEntries] at hx
    obtain ⟨rfl, rfl⟩ := Prod.mk.inj hx
    rw [operationsAll, tallyAll]
    exact .inl ⟨rfl, .nil⟩
  | (n, t) :: es, previous, p, s, s', r, hx => by
    rw [operationsAll, tallyAll]
    rcases exec_writeEntries_cons hx with ⟨e, hfirst, rfl⟩ | ⟨first, s₁, rest, hfirst, hall, rfl⟩
    · rcases exec_writeWith_operations isSame t hfirst with ⟨hr, -⟩ | ⟨e', hr, h⟩
      · cases hr
      · obtain rfl := Except.error.inj hr
        exact .inr ⟨e, rfl, h.append_right _⟩
    · rcases exec_writeWith_operations isSame t hfirst with ⟨hr, h⟩ | ⟨e', hr, -⟩
      · obtain rfl := Except.ok.inj hr
        rcases exec_writeEntries_operations isSame es hall with ⟨rfl, h'⟩ | ⟨e, rfl, h'⟩
        · exact .inl ⟨rfl, performs_append.mpr ⟨_, h, h'⟩⟩
        · exact .inr ⟨e, rfl, h.append_stops h'⟩
      · cases hr

end

mutual

/-- The operations do not depend on labels, if it does not which directories count as the same. -/
theorem operations_plain {isSame : Tree β → Tree α → Bool} {isSame' : Tree β → FileTree → Bool}
    (hsame : ∀ a t, isSame a t = isSame' a t.plain) : ∀ (t : Tree α) (previous : Option (Tree β))
    (p : Path), operations isSame' previous t.plain p = operations isSame previous t p ∧
      tally isSame' previous t.plain = tally isSame previous t
  | .file l c, previous, p => by
    rw [Tree.plain, Tree.map, operations, operations, tally, tally]
    exact ⟨rfl, rfl⟩
  | .dir l es, previous, p => by
    have hany : previous.any (isSame' · (.dir l es : Tree α).plain) =
        previous.any (isSame · (.dir l es)) := by
      simp only [hsame]
    obtain ⟨hops, htally⟩ := operationsAll_plain hsame es previous p
    have hcount : (Tree.dir l es).plain.fileCount = (Tree.dir l es).fileCount :=
      Tree.fileCount_map _ _
    rw [Tree.plain, Tree.map] at hany hcount ⊢
    rw [operations, operations, tally, tally, hany, hops, htally, hcount]
    exact ⟨rfl, rfl⟩

theorem operationsAll_plain {isSame : Tree β → Tree α → Bool} {isSame' : Tree β → FileTree → Bool}
    (hsame : ∀ a t, isSame a t = isSame' a t.plain) : ∀ (es : List (String × Tree α))
    (previous : Option (Tree β)) (p : Path),
      operationsAll isSame' previous (Tree.mapAll (fun _ => ()) es) p =
        operationsAll isSame previous es p ∧
      tallyAll isSame' previous (Tree.mapAll (fun _ => ()) es) = tallyAll isSame previous es
  | [], previous, p => by
    rw [Tree.mapAll, operationsAll, operationsAll, tallyAll, tallyAll]
    exact ⟨rfl, rfl⟩
  | (n, t) :: es, previous, p => by
    have hfirst := operations_plain hsame t (previous.bind fun a => a.entry? n)
      (p.join (Utf8.encode n))
    obtain ⟨hops, htally⟩ := operationsAll_plain hsame es previous p
    rw [Tree.plain] at hfirst
    rw [Tree.mapAll, operationsAll, operationsAll, tallyAll, tallyAll, hfirst.1, hfirst.2, hops,
      htally]
    exact ⟨rfl, rfl⟩

end

/-! ### What operations leave -/

namespace Operation

/-- Off the places that it touches, an operation changes nothing that is seen. -/
theorem view_of_not_touched {r : Except IoError Unit} (hx : exec op.change d = (r, d'))
    (ht : ¬ op.Touches place) : d'.view place = d.view place := by
  cases op with
  | makeDirs p =>
      rcases altered_makeDirs p hx place with h | ⟨_, h, -⟩ | ⟨hway, hnone, -⟩
      · exact h
      · exact h.elim
      · refine absurd ⟨fun hempty => ?_, hway⟩ ht
        have hidle : ∀ piece ∈ p.pieces, Path.isIdle piece = true := by
          rw [Path.pieces, hempty]
          decide
        rw [Path.onWay_of_idle hidle hway] at hnone
        exact view_top d hnone
  | setFile p c =>
      rcases altered_setFile p c hx place with h | ⟨_, ⟨hplace, -⟩, -⟩ | ⟨h, -⟩
      · exact h
      · exact absurd hplace ht
      · exact h.elim

/-- At the places that it touches, an operation that ends well leaves what it shows. -/
theorem view_of_ok (hx : exec op.change d = (.ok (), d')) (ht : op.Touches place) :
    d'.view place = op.shows := by
  cases op with
  | makeDirs p => exact view_onWay ((exec_makeDirs_ok hx).resolve_left ht.1) ht.2
  | setFile p c =>
      rcases exec_setFile hx with ⟨⟨e, he⟩, -⟩ | ⟨-, hc, -⟩
      · cases he
      · exact ht ▸ view_of_contentsAt hc

end Operation

theorem Stops.view_of_not_touched (h : Stops ops d e d')
    (ht : ∀ op ∈ ops, ¬ op.Touches place) : d'.view place = d.view place := by
  induction h with
  | here hop => exact Operation.view_of_not_touched hop (ht _ List.mem_cons_self)
  | later hop _ ih =>
      rw [List.forall_mem_cons] at ht
      exact (ih ht.2).trans (Operation.view_of_not_touched hop ht.1)

/-- Operations that end well on two disks leave the same at every place that one of them touches, and
at those at which the same was seen before. -/
theorem Performs.view_eq {d₁' d₂' : Disk} (h₁ : Performs ops d₁ d₁') (h₂ : Performs ops d₂ d₂')
    (hsame : (∃ op ∈ ops, op.Touches place) ∨ d₁.view place = d₂.view place) :
    d₁'.view place = d₂'.view place := by
  induction h₁ generalizing d₂ with
  | nil =>
      cases h₂
      rcases hsame with ⟨_, hmem, -⟩ | hsame
      · cases hmem
      · exact hsame
  | @cons op ops _ _ _ hop _ ih =>
      cases h₂ with
      | cons hop' hrest =>
          refine ih hrest ?_
          by_cases ht : op.Touches place
          · right
            rw [Operation.view_of_ok hop ht, Operation.view_of_ok hop' ht]
          · rw [Operation.view_of_not_touched hop ht, Operation.view_of_not_touched hop' ht]
            rcases hsame with ⟨op', hmem, ht'⟩ | hsame
            · rcases List.mem_cons.mp hmem with rfl | hmem
              · exact absurd ht' ht
              · exact .inl ⟨op', hmem, ht'⟩
            · exact .inr hsame

/-- Operations that failed, and were started again and ended well then, leave what they leave when none
of them fails. -/
theorem Stops.view_eq {again again' clean clean' : Disk} (hs : Stops ops d e d₁)
    (htop : again.top = d₁.top) (hclean : clean.top = d.top) (h : Performs ops again again')
    (h' : Performs ops clean clean') (place : List Bytes) :
    clean'.view place = again'.view place := by
  refine h'.view_eq h ?_
  by_cases ht : ∃ op ∈ ops, op.Touches place
  · exact .inl ht
  · right
    have hsame := hs.view_of_not_touched fun op hmem ht' => ht ⟨op, hmem, ht'⟩
    rw [view, view] at hsame ⊢
    rw [hclean, htop, hsame]

/-! ### Writing trees -/

/-- The operations of `writeTree`. -/
def treeOperations (t : Tree α) (p : Path) (previous : Option (Tree β)) : List Operation :=
  operations (fun previous t => previous.fingerprint = t.fingerprint) previous t p

/-- The summary of `writeTree`, when it ends well. -/
def treeTally (t : Tree α) (previous : Option (Tree β)) : Summary :=
  tally (fun previous t => previous.fingerprint = t.fingerprint) previous t

theorem exec_writeTree_operations (hx : exec (writeTree t p previous) s = (r, s')) :
    Came (treeOperations t p previous) (treeTally t previous) s.disk r s'.disk :=
  exec_writeWith_operations _ t hx

theorem treeOperations_plain (t : Tree α) (p : Path) (previous : Option (Tree β)) :
    treeOperations t.plain p previous = treeOperations t p previous ∧
      treeTally t.plain previous = treeTally t previous := by
  refine operations_plain (fun a t => ?_) t previous p
  rw [Tree.fingerprint, Tree.fingerprint, Tree.fingerprint, Tree.plain, Tree.stream_map]

theorem treeOperations_of_plain {u : Tree α} (h : t.plain = u.plain) (p : Path)
    (previous : Option (Tree β)) : treeOperations t p previous = treeOperations u p previous ∧
      treeTally t previous = treeTally u previous := by
  obtain ⟨hops, htally⟩ := treeOperations_plain t p previous
  obtain ⟨hops', htally'⟩ := treeOperations_plain u p previous
  rw [h] at hops htally
  exact ⟨hops.symm.trans hops', htally.symm.trans htally'⟩

end Disk

end PackageOutline
