import PackageOutline.Proofs.Disk.Names
import PackageOutline.Proofs.Snapshot.Codec
import PackageOutline.Tree.Fingerprint

/-! # Reading streams

The bytes that are hashed for a tree have no marks between their parts.  But every count and every
length stands before what it counts, and every tree begins with its kind, so a stream can be read from
the left, and where it ends is known from its own bytes: when two streams, each followed by anything,
are the same bytes, then the trees are equal and so is what follows (`stream_append_inj`).

Hence the stream determines the tree (`stream_eq_iff`), and no stream begins another one
(`plain_eq_of_stream_begins`). -/

namespace PackageOutline

namespace Tree

variable {α β : Type} {bs cs : Bytes}

theorem length_countBytes (n : Nat) : (countBytes n).length = 8 := LittleEndian.length_write 8 n

theorem read_countBytes {n : Nat} (h : n < maxLength) : LittleEndian.read (countBytes n) = n :=
  LittleEndian.read_write_of_lt (Nat.lt_of_lt_of_eq h (by decide))

/-- A count is read from its eight bytes, whatever follows. -/
theorem countBytes_append_inj {m n : Nat} (hm : m < maxLength) (hn : n < maxLength)
    (h : countBytes m ++ bs = countBytes n ++ cs) : m = n ∧ bs = cs := by
  have hlen : (countBytes m).length = (countBytes n).length :=
    (length_countBytes m).trans (length_countBytes n).symm
  obtain ⟨hcount, hrest⟩ := List.append_inj h hlen
  have hread := congrArg LittleEndian.read hcount
  rw [read_countBytes hm, read_countBytes hn] at hread
  exact ⟨hread, hrest⟩

theorem counted_append_inj {c d : Bytes} (hc : c.length < maxLength) (hd : d.length < maxLength)
    (h : countBytes c.length ++ (c ++ bs) = countBytes d.length ++ (d ++ cs)) :
    c = d ∧ bs = cs := by
  obtain ⟨hlen, hrest⟩ := countBytes_append_inj hc hd h
  exact List.append_inj hrest hlen

mutual

/-- A stream that anything follows is read in one way only.  The induction is on both trees at once:
what follows an entry is the stream of the entries after it. -/
theorem stream_append_inj : ∀ (t : Tree α) (u : Tree β) {bs cs : Bytes}, t.Sized → u.Sized →
    t.stream ++ bs = u.stream ++ cs → t.plain = u.plain ∧ bs = cs
  | .file _ c, .file _ d, bs, cs, st, su, h => by
    rw [Sized] at st su
    rw [stream, stream, List.cons_append, List.cons_append, List.append_assoc,
      List.append_assoc] at h
    obtain ⟨hc, hrest⟩ := counted_append_inj st su (List.cons.inj h).2
    exact ⟨by rw [plain, plain, map, map, hc], hrest⟩
  | .dir _ es, .dir _ fs, bs, cs, st, su, h => by
    rw [Sized] at st su
    rw [stream, stream, List.cons_append, List.cons_append, List.append_assoc,
      List.append_assoc] at h
    obtain ⟨hlen, hentries⟩ := countBytes_append_inj st.1 su.1 (List.cons.inj h).2
    obtain ⟨hes, hrest⟩ := streamAll_append_inj es fs hlen st.2 su.2 hentries
    exact ⟨by rw [plain, plain, map, map, hes], hrest⟩
  | .file .., .dir .., bs, cs, _, _, h => by
    rw [stream, stream] at h
    exact absurd (List.cons.inj h).1 (by decide)
  | .dir .., .file .., bs, cs, _, _, h => by
    rw [stream, stream] at h
    exact absurd (List.cons.inj h).1 (by decide)

/-- As many entries on both sides are read in one way only. -/
theorem streamAll_append_inj : ∀ (es : List (String × Tree α)) (fs : List (String × Tree β))
    {bs cs : Bytes}, es.length = fs.length → SizedAll es → SizedAll fs →
    streamAll es ++ bs = streamAll fs ++ cs →
      mapAll (fun _ => ()) es = mapAll (fun _ => ()) fs ∧ bs = cs
  | [], [], bs, cs, _, _, _, h => ⟨rfl, h⟩
  | (n, t) :: es, (m, u) :: fs, bs, cs, hlen, ses, sfs, h => by
    rw [SizedAll] at ses sfs
    obtain ⟨sn, st, ses⟩ := ses
    obtain ⟨sm, su, sfs⟩ := sfs
    rw [streamAll, streamAll] at h
    simp only [List.append_assoc] at h
    obtain ⟨hname, hnode⟩ := counted_append_inj sn sm h
    obtain ⟨ht, hentries⟩ := stream_append_inj t u st su hnode
    obtain ⟨hes, hrest⟩ := streamAll_append_inj es fs (Nat.succ.inj hlen) ses sfs hentries
    rw [plain, plain] at ht
    exact ⟨by rw [mapAll, mapAll, Utf8.encode_injective hname, ht, hes], hrest⟩
  | [], _ :: _, bs, cs, hlen, _, _, _ => by cases hlen
  | _ :: _, [], bs, cs, hlen, _, _, _ => by cases hlen

end

variable {t : Tree α} {u : Tree β}

theorem stream_of_plain (h : t.plain = u.plain) : t.stream = u.stream := by
  rw [← stream_map (fun _ => ()) t, ← stream_map (fun _ => ()) u]
  exact congrArg stream h

/-- A stream that begins another one is the stream of the same tree. -/
theorem plain_eq_of_stream_begins (st : t.Sized) (su : u.Sized) (h : t.stream <+: u.stream) :
    t.plain = u.plain := by
  obtain ⟨rest, hrest⟩ := h
  have hends : t.stream ++ rest = u.stream ++ [] := by rw [hrest, List.append_nil]
  exact (stream_append_inj t u st su hends).1

/-- The stream determines the tree: names, order and contents. -/
theorem stream_eq_iff (st : t.Sized) (su : u.Sized) : t.stream = u.stream ↔ t.plain = u.plain :=
  ⟨fun h => plain_eq_of_stream_begins st su (h ▸ List.prefix_rfl), stream_of_plain⟩

end Tree

end PackageOutline
