import PackageOutline.Proofs.Snapshot.RoundTrip

/-! # Snapshots that are cut short

A reader that is told by the bytes themselves where its form ends runs out of bytes on every proper
prefix of the form (`RunsOut`).  Readers one after another do so when each of them does
(`RunsOut.bind`), and so, by recursion on the form, does the reader of nodes (`runsOut_readNode`).
Hence a snapshot that is cut short is noticed wherever the cut is, and no snapshot is the beginning
of another one (`Snapshot.truncation_detected`). -/

namespace PackageOutline

namespace Snapshot

open Varint (Form Marks)

variable {α β : Type} {limit n width : Nat} {form more size : Bytes}

/-- On the proper prefixes of the form that are shorter than the limit, the reader runs out of
bytes. -/
def RunsOut (limit : Nat) (read : Bytes → Except DecodeError α) (form : Bytes) : Prop :=
  ∀ p, p <+: form → p ≠ form → p.length < limit → read p = .error .unexpectedEnd

namespace RunsOut

theorem mono {read : Bytes → Except DecodeError α} (h : RunsOut limit read form)
    (hn : n ≤ limit) : RunsOut n read form :=
  fun p hp hne hlt => h p hp hne (Nat.lt_of_lt_of_le hlt hn)

theorem nil (read : Bytes → Except DecodeError α) : RunsOut limit read [] :=
  fun _ hp hne => absurd (List.prefix_nil.mp hp) hne

/-- A cut through two forms goes through the first one, or it leaves that whole and goes through the
second one. -/
theorem bind {read : Bytes → Except DecodeError (α × Bytes)}
    {next : α × Bytes → Except DecodeError β} {a : α} (hread : RunsOut limit read form)
    (hok : form.length < limit → ∀ rest, read (form ++ rest) = .ok (a, rest))
    (hnext : RunsOut (limit - form.length) (fun bs => next (a, bs)) more) :
    RunsOut limit (fun bs => read bs >>= next) (form ++ more) := by
  intro p hp hne hlt
  show read p >>= next = _
  rcases List.prefix_or_prefix_of_prefix hp (List.prefix_append form more) with hform | hform
  · by_cases hwhole : p = form
    · -- the cut is between the forms, so the second reader gets nothing, and needs something
      have hrest : more ≠ [] := by
        rintro rfl
        exact hne (by rw [hwhole, List.append_nil])
      have hread' := hok (hwhole ▸ hlt) []
      rw [List.append_nil] at hread'
      rw [hwhole, hread']
      exact hnext [] List.nil_prefix (fun h => hrest h.symm) (by
        rw [hwhole] at hlt
        exact Nat.sub_pos_of_lt hlt)
    · rw [hread p hform hwhole hlt]
      rfl
  · obtain ⟨rest, rfl⟩ := hform
    rw [List.length_append] at hlt
    rw [hok (by omega) rest]
    refine hnext rest ((List.prefix_append_right_inj form).mp hp) (fun h => hne (by rw [h])) ?_
    omega

end RunsOut

/-! ### Numbers, contents and names -/

theorem runsOut_takeBytes {piece : Bytes} (h : piece.length = n) :
    RunsOut limit (Varint.takeBytes n) piece := by
  intro p hp hne _
  have hlt : p.length < n := by
    have hle := hp.length_le
    have : p.length ≠ piece.length := fun hlen => hne (hp.eq_of_length hlen)
    omega
  have hshort : ¬ (p.take n).length = n := by
    rw [List.length_take]
    omega
  unfold Varint.takeBytes
  simp only [if_neg hshort]

theorem runsOut_readMarked {marker : UInt8} {count : Nat} (marks : Marks marker count)
    (fits : count ≤ width) : RunsOut limit (Varint.readMarked width marker)
      (LittleEndian.write count n) := by
  intro p hp hne hlt
  have hsize : (if marker = 251 then 2 else if marker = 252 then 4 else
      if marker = 253 then 8 else 0 : Nat) = count := by
    cases marks <;> rfl
  have hfits : ¬ (count = 0 ∨ width < count) := by
    cases marks <;> omega
  have htake : RunsOut limit (Varint.takeBytes count) (LittleEndian.write count n) :=
    runsOut_takeBytes (LittleEndian.length_write count n)
  unfold Varint.readMarked
  simp only [hsize, if_neg hfits, htake p hp hne hlt, Except.map]

theorem runsOut_read (h : Form width n form) : RunsOut limit (Varint.read width) form := by
  intro p hp hne hlt
  cases p with
  | nil => rfl
  | cons b p =>
      cases h with
      | short small =>
          obtain ⟨rest, hrest⟩ := hp
          have hnil : p ++ rest = [] := (List.cons.inj hrest).2
          obtain ⟨rfl, -⟩ := List.append_eq_nil_iff.mp hnil
          exact absurd (by rw [(List.cons.inj hrest).1]) hne
      | @marked marker count marks fits bound =>
          obtain ⟨rfl, hrest⟩ := List.cons_prefix_cons.mp hp
          have hlarge : ¬ b ≤ 250 := by
            cases marks <;> decide
          have hcount : RunsOut limit (Varint.readMarked width b) (LittleEndian.write count n) :=
            runsOut_readMarked marks fits
          rw [Varint.read, if_neg hlarge]
          exact hcount p hrest (fun h => hne (by rw [h])) (Nat.lt_of_succ_lt hlt)

theorem read_form (h : Form width n form) (rest : Bytes) :
    Varint.read width (form ++ rest) = .ok (n, rest) :=
  Varint.read_eq_ok_iff.mpr ⟨form, h, rfl⟩

theorem runsOut_readBytes {c : Bytes} (h : Form countWidth c.length size) :
    RunsOut limit readBytes (size ++ c) :=
  (runsOut_read h).bind (fun _ => read_form h) (runsOut_takeBytes rfl)

theorem readBytes_form {c : Bytes} (h : Form countWidth c.length size) (rest : Bytes) :
    readBytes (size ++ c ++ rest) = .ok (c, rest) :=
  readBytes_eq_ok_iff.mpr ⟨size, h, List.append_assoc ..⟩

/-- A name that is cut short is not looked at as text. -/
theorem runsOut_readName {name : String} (h : Form countWidth (Utf8.encode name).length size) :
    RunsOut limit readName (size ++ Utf8.encode name) := by
  intro p hp hne hlt
  have hbytes : RunsOut limit readBytes (size ++ Utf8.encode name) := runsOut_readBytes h
  unfold readName
  rw [hbytes p hp hne hlt]
  rfl

theorem readName_form {name : String} (h : Form countWidth (Utf8.encode name).length size)
    (rest : Bytes) : readName (size ++ Utf8.encode name ++ rest) = .ok (name, rest) :=
  readName_eq_ok_iff.mpr ⟨size, h, List.append_assoc ..⟩

/-! ### Nodes -/

mutual

/-- The reader of nodes runs out of bytes at every level of nesting. -/
theorem runsOut_readNode : ∀ (raw : FileTree) (form : Bytes), NodeForm raw form →
    ∀ fuel, RunsOut fuel (readNode fuel) form
  | _, _, _, 0 => fun _ _ _ hlt => absurd hlt (Nat.not_lt_zero _)
  | .file () c, _, @NodeForm.file _ kind size isFile length, fuel + 1 => by
    show RunsOut (fuel + 1) (fun bs => readNode (fuel + 1) bs) _
    simp only [readNode]
    refine (runsOut_read isFile).bind (fun _ => read_form isFile) ?_
    rw [← List.append_nil (size ++ c)]
    exact (runsOut_readBytes length).bind (fun _ => readBytes_form length) (.nil _)
  | .dir () es, _, @NodeForm.dir _ kind size body isDir length entries, fuel + 1 => by
    have hpos := isDir.length_pos
    show RunsOut (fuel + 1) (fun bs => readNode (fuel + 1) bs) _
    simp only [readNode]
    refine (runsOut_read isDir).bind (fun _ => read_form isDir) ?_
    refine (runsOut_read length).bind (fun _ => read_form length) ?_
    have hes : RunsOut (fuel + 1 - kind.length - size.length) (readEntries fuel es.length) body :=
      (runsOut_readEntries es body entries fuel).mono (by omega)
    rw [← List.append_nil body]
    exact hes.bind (fun hlt => readEntries_append es body entries fuel (by omega)) (.nil _)

theorem runsOut_readEntries : ∀ (raw : List (String × FileTree)) (form : Bytes),
    EntriesForm raw form → ∀ fuel, RunsOut fuel (readEntries fuel raw.length) form
  | [], _, .nil, _ => .nil _
  | _ :: _, _, _, 0 => fun _ _ _ hlt => absurd hlt (Nat.not_lt_zero _)
  | (name, t) :: es, _, @EntriesForm.cons _ _ _ size node body length first others, fuel + 1 => by
    have hpos := length.length_pos
    show RunsOut (fuel + 1) (fun bs => readEntries (fuel + 1) (es.length + 1) bs) _
    simp only [readEntries]
    rw [← List.append_assoc]
    refine (runsOut_readName length).bind (fun _ => readName_form length) ?_
    rw [List.length_append]
    have hnode : RunsOut (fuel + 1 - (size.length + (Utf8.encode name).length)) (readNode fuel)
        node := (runsOut_readNode t node first fuel).mono (by omega)
    have hes : RunsOut (fuel + 1 - (size.length + (Utf8.encode name).length) - node.length)
        (readEntries fuel es.length) body :=
      (runsOut_readEntries es body others fuel).mono (by omega)
    dsimp only
    refine hnode.bind (fun hlt => readNode_append t node first fuel (by omega)) ?_
    rw [← List.append_nil body]
    dsimp only
    exact hes.bind (fun hlt => readEntries_append es body others fuel (by omega)) (.nil _)

end

/-! ### Whole snapshots -/

/-- Cutting the bytes of a tree short is noticed as a lack of bytes. -/
theorem decode_cut {t : Tree α} (s : t.Sized) {p : Bytes} (hp : p <+: encode t)
    (hne : p ≠ encode t) : decode p = .error (.decode .unexpectedEnd) := by
  have hversion : Form tagWidth version (Varint.write version) :=
    Varint.form_write_of_small (by decide)
  have hnode : RunsOut (p.length + 1 - (Varint.write version).length)
      (fun bs => readNode (bs.length + 1) bs >>= fun r => pure (version, r.1)) (writeNode t) := by
    intro q hq hqne _
    have hrun := runsOut_readNode t.plain _ (nodeForm_writeNode t s) (q.length + 1) q hq hqne
      (Nat.lt_succ_self _)
    show readNode (q.length + 1) q >>= _ = _
    rw [hrun]
    rfl
  have hall : readAll p = .error .unexpectedEnd :=
    (runsOut_read hversion).bind (fun _ => read_form hversion) hnode p hp hne (Nat.lt_succ_self _)
  unfold decode
  rw [hall]

/-- The bytes of a tree do not begin those of a different one. -/
theorem plain_eq_of_begins {t : Tree α} {u : Tree β} (wt : t.WellNamed) (st : t.Sized)
    (wu : u.WellNamed) (su : u.Sized) (h : encode t <+: encode u) : t.plain = u.plain := by
  have hdecode := decode_encode wt st
  by_cases heq : encode t = encode u
  · rw [heq, decode_encode wu su] at hdecode
    exact (Except.ok.inj hdecode).symm
  · rw [decode_cut su h heq] at hdecode
    cases hdecode

mutual

theorem writeNode_plain : ∀ t : Tree α, writeNode t.plain = writeNode t
  | .file _ c => by rw [Tree.plain, Tree.map, writeNode, writeNode]
  | .dir _ es => by
    rw [Tree.plain, Tree.map, writeNode, writeNode, Tree.length_mapAll, writeEntries_plain es]

theorem writeEntries_plain : ∀ es : List (String × Tree α),
    writeEntries (Tree.mapAll (fun _ => ()) es) = writeEntries es
  | [] => by rw [Tree.mapAll, writeEntries, writeEntries]
  | (n, t) :: es => by
    have ht := writeNode_plain t
    rw [Tree.plain] at ht
    rw [Tree.mapAll, writeEntries, writeEntries, ht, writeEntries_plain es]

end

theorem encode_eq_of_plain {t : Tree α} {u : Tree β} (h : t.plain = u.plain) :
    encode t = encode u := by
  rw [encode, encode, ← writeNode_plain t, ← writeNode_plain u, h]

/-- Whatever holds the first bytes of a snapshot, but not all of them, is refused for the bytes that
are missing.  The bytes of one tree begin with those of another only if the two trees are equal, and
so only equal trees have equal stored forms. -/
theorem truncation_detected {compress : Bytes → Bytes} {decompress : Bytes → Option Bytes}
    (undo : ∀ bs, decompress (compress bs) = some bs) :
    (∀ {α : Type} (t : Tree α), t.Sized → ∀ p, p <+: encode t → p ≠ encode t →
      ∀ frame, decompress frame = some p →
        unpackWith decompress frame = .error (.decode .unexpectedEnd)) ∧
    ∀ {α β : Type} (t : Tree α) (u : Tree β), t.WellNamed → t.Sized → u.WellNamed → u.Sized →
      (encode t <+: encode u ↔ t.plain = u.plain) ∧
        (packWith compress t = packWith compress u ↔ t.plain = u.plain) := by
  refine ⟨fun t s p hp hne frame hframe => ?_, fun t u wt st wu su => ⟨⟨?_, ?_⟩, ?_, ?_⟩⟩
  · unfold unpackWith
    rw [hframe]
    exact decode_cut s hp hne
  · exact plain_eq_of_begins wt st wu su
  · intro h
    exact encode_eq_of_plain h ▸ List.prefix_rfl
  · intro h
    have hbytes := congrArg decompress h
    rw [packWith, packWith, undo, undo] at hbytes
    exact plain_eq_of_begins wt st wu su (Option.some.inj hbytes ▸ List.prefix_rfl)
  · intro h
    rw [packWith, packWith, encode_eq_of_plain h]

/-- A directory with an empty one and a file whose length takes a marker: cut within that length,
within the name before it, or before the first byte. -/
theorem truncation_detected_of_frames :
    let t : FileTree := .dir () [("d", .dir () []), ("é", .file () (List.replicate 300 7))]
    let cut (n : Nat) : Bytes := Frame.write ((encode t).take n)
    t.Sized ∧ unpack (cut 13) = .error (.decode .unexpectedEnd) ∧
      unpack (cut 9) = .error (.decode .unexpectedEnd) ∧
      unpack (cut 0) = .error (.decode .unexpectedEnd) ∧
      pack t ≠ pack (Tree.dir () [("d", .dir () [])]) := by
  intro t cut
  have hframe := truncation_detected Frame.read_write
  have s : t.Sized := by
    simp only [t, Tree.Sized, Tree.SizedAll]
    decide +kernel
  have w : t.WellNamed := by
    simp only [t, Tree.WellNamed, Tree.WellNamedAll, Entries.keys]
    decide
  have short : ∀ n, n < 300 → unpack (cut n) = .error (.decode .unexpectedEnd) := by
    intro n hn
    have hbegins : (encode t).take n <+: encode t := List.take_prefix n (encode t)
    refine hframe.1 t s _ hbegins (fun h => ?_) _ (Frame.read_write _)
    have hlen := congrArg List.length h
    have hfull : (encode t).length = 314 := by decide +kernel
    rw [List.length_take, hfull] at hlen
    omega
  refine ⟨s, short 13 (by decide), short 9 (by decide), short 0 (by decide), fun h => ?_⟩
  have hplain := ((hframe.2 t _ w s (by simp [Tree.WellNamed, Tree.WellNamedAll, Entries.keys])
    (by simp only [Tree.Sized, Tree.SizedAll]; decide +kernel)).2).mp h
  have hcount := congrArg (fun u : FileTree => u.entries.length) hplain
  exact absurd hcount (by decide)

end Snapshot

end PackageOutline
