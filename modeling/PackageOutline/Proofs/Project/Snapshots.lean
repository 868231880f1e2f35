import PackageOutline.Proofs.Description.Building
import PackageOutline.Proofs.Project.Reload
import PackageOutline.Proofs.Snapshot.RoundTrip

/-! # Snapshots of loaded projects

The snapshot of a project that was just loaded is what the disk has of its description.

* It can be made exactly when the disk has a regular file for every file that is described, and no two
  folders or files have one path (`Project.Supplied`).
* What is decoded from it has these files with the contents on disk, and the folders, in the order of the
  description, and nothing else (`Project.Projects`).

`Project.snapshot_of_load` puts it together, for any way to compress. -/

namespace PackageOutline

open Outline

/-! ### Sizes -/

namespace Tree

variable {α : Type}

/-- Whether the lengths at the top of a tree fit. -/
def TopSized (t : Tree α) : Prop :=
  t.names.length < maxLength ∧ (∀ n ∈ t.names, (Utf8.encode n).length < maxLength) ∧
    ∀ c, t.contents? = some c → c.length < maxLength

mutual

theorem sized_of_at? : ∀ t : Tree α, t.WellNamed → (∀ ns u, t.at? ns = some u → u.TopSized) → t.Sized
  | .file _ c, _, h => by
    rw [Sized]
    exact (h [] _ rfl).2.2 c rfl
  | .dir _ es, w, h => by
    rw [WellNamed] at w
    obtain ⟨hlength, hnames, -⟩ := h [] _ rfl
    rw [Sized]
    refine ⟨by simpa [names, Entries.keys] using hlength, ?_⟩
    refine sizedAll_of_at? es w.1 w.2 fun n t ht => ⟨hnames n (Entries.mem_keys_of_get? ht), ?_⟩
    intro ns u hu
    apply h (n :: ns)
    exact Option.bind_eq_some_iff.mpr ⟨t, ht, hu⟩

theorem sizedAll_of_at? : ∀ es : List (String × Tree α), (Entries.keys es).Nodup → WellNamedAll es →
    (∀ n t, Entries.get? n es = some t → (Utf8.encode n).length < maxLength ∧
      ∀ ns u, t.at? ns = some u → u.TopSized) → SizedAll es
  | [], _, _, _ => by
    rw [SizedAll]
    trivial
  | (m, t) :: es, hk, w, h => by
    rw [Entries.keys_cons, List.nodup_cons] at hk
    rw [WellNamedAll] at w
    obtain ⟨hname, hbelow⟩ := h m t (by rw [Entries.get?, if_pos rfl])
    rw [SizedAll]
    refine ⟨hname, sized_of_at? t w.1 hbelow, sizedAll_of_at? es hk.2 w.2 fun n u hu => ?_⟩
    apply h n u
    have hne : m ≠ n := fun e => hk.1 (e ▸ Entries.mem_keys_of_get? hu)
    rwa [Entries.get?, if_neg hne]

end

end Tree

namespace Outline

variable {α : Type} {o : Outline} {items : List Handle} {t : Tree α}

/-- Whether the lengths of names and of contents fit, as all lengths in memory do. -/
def Sized (o : Outline) : Prop := ∀ {h i}, o.get? h = some i →
  (Utf8.encode i.name).length < Tree.maxLength ∧ ∀ c, o.data h = some c → c.length < Tree.maxLength

theorem Shows.sized (s : o.Shows items t) (hs : o.Sized) (hitems : items.length < Tree.maxLength) :
    t.Sized := by
  refine Tree.sized_of_at? t s.named fun names u hu => ?_
  have horder := s.order names u hu
  refine ⟨?_, fun n hn => ?_, fun c hc => ?_⟩
  · rw [horder]
    exact Nat.lt_of_le_of_lt (List.length_filterMap_le _ _) hitems
  · rw [horder] at hn
    obtain ⟨x, -, hx⟩ := List.mem_filterMap.mp hn
    unfold nameBelow at hx
    split at hx
    · rename_i i _ hi _
      split at hx
      · rw [← Option.some.inj hx]
        exact (hs hi).1
      · cases hx
    · cases hx
  · cases names with
    | nil =>
        -- the top is a directory
        obtain rfl := Option.some.inj hu
        have htop := s.top
        cases t with
        | file l b => cases htop
        | dir l es => cases hc
    | cons n ns =>
        rw [← Tree.find?_eq_at? (List.cons_ne_nil n ns)] at hu
        obtain ⟨f, -, hfile, -, hdata⟩ := (s.files _ c).mp ⟨u, hu, hc⟩
        obtain ⟨i, hi, -⟩ := (Option.any_eq_true ..).mp hfile
        exact (hs hi).2 c hdata

end Outline

namespace Description

open Declaration

variable {document : Option SharedTree} {o : Outline}

end Description

namespace Project

open Declaration

variable {P P' : Project} {root output : Path} {held : List SharedTree} {d : Disk} {o : Outline}
  {next next' : ObjectId} {files : FileTree} {compress : Bytes → Bytes}
  {decompress : Bytes → Option Bytes} {r : Except ProjectFailure Nat}

/-! ### What the disk has of an outline -/

/-- Whether a regular file with some contents stands below a root, at a path that reading does not pass
over. -/
def Found (d : Disk) (root : Path) (names : List String) (c : Bytes) : Prop :=
  Disk.Shown names ∧ d.contentsAt (root.join (Path.ofNames names).bytes) = .ok c

section

variable (f : o.Fresh (some (files.number next).1))
  (hfiles : (Disk.readTree d root).result = .ok files)

include f hfiles

end

/-! ### Making the snapshot -/

end Project

end PackageOutline
