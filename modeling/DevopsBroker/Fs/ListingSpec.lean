import DevopsBroker.Adt.ListOfOrder
import DevopsBroker.Fs.DirectorySpec
import DevopsBroker.Fs.Listing

/-!
# A listing is the tree

`Mirrors` says that a structure is what the file system has at a path: the names of each
directory, in order, and below it the subdirectories. `listContents` leaves such a structure
exactly where each directory is `Listable`; the path comes back as it was. What is then printed is
the `report` of the structure, and what `find` finds is in it.
-/

namespace DevopsBroker.Fs

open DevopsBroker.Adt DevopsBroker.Lang DevopsBroker.Lang.StringBuilder DevopsBroker.Lib

/-! ## The tree -/

/-- The subdirectories that are gone into. -/
def goneInto (isRecursive : Bool) (entries : List Dirent) : List (List UInt8) :=
  if isRecursive then subdirNames entries else []

/-- All of a tree that is read can be read. -/
def Opens (fs : FileSystem) (isRecursive : Bool) : Nat → List UInt8 → Prop
  | 0, _ => False
  | depth + 1, path =>
    ∃ entries, opendir fs path = some entries ∧ ∀ name ∈ goneInto isRecursive entries,
      Opens fs isRecursive depth (child path name)

/-- The directories that are read. -/
def visited (fs : FileSystem) (isRecursive : Bool) : Nat → List UInt8 → List (List UInt8)
  | 0, _ => []
  | depth + 1, path =>
    path :: (goneInto isRecursive ((opendir fs path).getD [])).flatMap fun name =>
      visited fs isRecursive depth (child path name)

theorem opens_iff_readable {fs : FileSystem} {depth : Nat} :
    ∀ {path : List UInt8}, Opens fs true depth path ↔ Readable fs depth path := by
  induction depth with
  | zero => exact Iff.rfl
  | succ depth ih =>
    intro path
    exact exists_congr fun entries => and_congr_right' (forall₂_congr fun name _ => ih)

theorem visited_eq_directories (fs : FileSystem) (depth : Nat) :
    ∀ path, visited fs true depth path = directories fs depth path := by
  induction depth with
  | zero => exact fun _ => rfl
  | succ depth ih =>
    intro path
    rw [visited, directories]
    exact congrArg (path :: ·) (List.flatMap_congr fun name _ => ih (child path name))

/-- A directory that is listed, with a `DirPath` of some size. -/
structure Listable (fs : FileSystem) (size : Nat) (path : List UInt8) : Prop where
  subdirs : Sortable (subdirNames ((opendir fs path).getD [])).length
  files : Sortable (fileNames ((opendir fs path).getD [])).length
  slash_room : path.length + 1 < room size

/-- Names, from the first to the last. -/
structure InOrder (names entries : List (List UInt8)) : Prop where
  perm : names.Perm entries
  ordered : names.Pairwise (· ≤ ·)

/-- A structure that has not been read into. -/
def Directory.Bare (directory : Directory) : Prop :=
  directory.subdirList = none ∧ directory.fileList = none

/-- A structure has the names of the entries. -/
structure Lists (directory : Directory) (entries : List Dirent) : Prop where
  subdirs : InOrder ((elements directory.subdirList).map Directory.name) (subdirNames entries)
  files : InOrder ((elements directory.fileList).map File.name) (fileNames entries)

/-- A structure is what is at a path. -/
def Mirrors (fs : FileSystem) (isRecursive : Bool) : Nat → List UInt8 → Directory → Prop
  | 0, _, _ => False
  | depth + 1, path, directory =>
    ∃ entries, opendir fs path = some entries ∧ Lists directory entries ∧
      ∀ subdir ∈ elements directory.subdirList,
        if isRecursive then Mirrors fs isRecursive depth (child path subdir.name) subdir
        else subdir.Bare

/-! ## Reading a directory -/

/-- What a structure is read into keeps. -/
structure Reading (name : List UInt8) (directory : Directory) : Prop where
  name_eq : directory.name = name
  bare : ∀ subdir ∈ elements directory.subdirList, subdir.Bare
  subdirs : ∀ subdir ∈ elements directory.subdirList, 0 ∉ subdir.name
  files : ∀ file ∈ elements directory.fileList, 0 ∉ file.name

/-- The elements of a list, and one more. -/
theorem mem_addTo {α : Type} {list : Option (ListOf α)} {element : α} {list' : ListOf α}
    (hadd : addTo list element = some list') {a : α} (ha : a ∈ elements (some list')) :
    a ∈ elements list ∨ a = element := by
  obtain ⟨grown, hgrow, hlist⟩ := Option.bind_eq_some_iff.mp hadd
  have hsame : grown.values = (list.getD ListOf.init).values := by
    unfold ListOf.grow at hgrow
    split at hgrow
    · split at hgrow
      · exact Option.some.inj hgrow ▸ rfl
      · cases hgrow
    · exact Option.some.inj hgrow ▸ rfl
  obtain rfl := Option.some.inj hlist
  have hmem : a ∈ grown.values ++ [element] := ha
  rw [hsame, ← elements_eq] at hmem
  exact (List.mem_append.mp hmem).imp id List.mem_singleton.mp

theorem readEntry_reading {name : List UInt8} {directory directory' : Directory} {e : Dirent}
    (h : Reading name directory) (hread : readEntry directory e = some directory') :
    Reading name directory' := by
  unfold readEntry at hread
  simp only [initDirectory_name, createFile_name, Option.bind_eq_bind, Option.bind_some] at hread
  split at hread
  · split at hread
    · exact Option.some.inj hread ▸ h
    · obtain ⟨list, hadd, hdirectory⟩ := Option.bind_eq_some_iff.mp hread
      obtain rfl := Option.some.inj hdirectory
      refine ⟨h.name_eq, fun subdir hmem => ?_, fun subdir hmem => ?_, h.files⟩
      · rcases mem_addTo hadd hmem with hold | rfl
        · exact h.bare subdir hold
        · exact ⟨rfl, rfl⟩
      · rcases mem_addTo hadd hmem with hold | rfl
        · exact h.subdirs subdir hold
        · exact e.notNul
  · split at hread
    · obtain ⟨list, hadd, hdirectory⟩ := Option.bind_eq_some_iff.mp hread
      obtain rfl := Option.some.inj hdirectory
      refine ⟨h.name_eq, h.bare, h.subdirs, fun file hmem => ?_⟩
      rcases mem_addTo hadd hmem with hold | rfl
      · exact h.files file hold
      · exact e.notNul
    · exact Option.some.inj hread ▸ h

/-- A sort of a list that may be without elements. -/
theorem sortList_ordered {α : Type} (name : α → List UInt8) {list list' : Option (ListOf α)}
    (hnames : ∀ a ∈ elements list, 0 ∉ name a)
    (hsort : sortList (fun a b => Lang.compare (name a) (name b)) list = some list') :
    ((elements list').map name).Pairwise (· ≤ ·) ∧ ∀ a ∈ elements list', a ∈ elements list := by
  cases list with
  | none =>
    obtain rfl := Option.some.inj hsort
    exact ⟨List.Pairwise.nil, fun _ ha => ha⟩
  | some list =>
    obtain ⟨sorted, hsorted, rfl⟩ := Option.map_eq_some_iff.mp hsort
    refine ⟨ListOf.sort_ordered name hnames hsorted, fun a ha => ?_⟩
    have hexactly := ListOf.sort_exactly (fun a b => Lang.compare (name a) (name b)) list
    have hroom : list.values.length ≠ 1 ∧ list.values.length < 2 ^ 31 := by
      by_contra hno
      rw [hexactly.fails hno] at hsorted
      cases hsorted
    obtain ⟨list', hsorted', hperm⟩ := hexactly.comes hroom
    rw [hsorted, Option.some.injEq] at hsorted'
    subst hsorted'
    exact hperm.mem_iff.mp ha

/-- **A directory that is read** has its names in order, and nothing below them. -/
theorem readDirectory_lists {fs : FileSystem} {path : List UInt8} (name : List UInt8)
    {entries : List Dirent} (h : opendir fs path = some entries) :
    Exactly (Sortable (subdirNames entries).length ∧ Sortable (fileNames entries).length)
      (fun directory => Lists directory entries ∧ Reading name directory)
      (readDirectory fs ⟨name, none, none⟩ path) := by
  have hkeeps : ∀ directory, readDirectory fs ⟨name, none, none⟩ path = some directory →
      ((elements directory.subdirList).map Directory.name).Pairwise (· ≤ ·) ∧
        ((elements directory.fileList).map File.name).Pairwise (· ≤ ·) ∧ Reading name directory := by
    intro directory hrun
    unfold readDirectory at hrun
    simp only [h, Option.bind_eq_bind, Option.bind_some] at hrun
    obtain ⟨read, hread, hrun⟩ := Option.bind_eq_some_iff.mp hrun
    obtain ⟨subdirList, hsubdirs, hrun⟩ := Option.bind_eq_some_iff.mp hrun
    obtain ⟨fileList, hfiles, hrun⟩ := Option.bind_eq_some_iff.mp hrun
    obtain rfl := Option.some.inj hrun
    have hstart : Reading name ⟨name, none, none⟩ := ⟨rfl, nofun, nofun, nofun⟩
    have hreading := foldlM_keeps readEntry_reading entries hstart hread
    obtain ⟨hsubdirOrder, hsubdirMem⟩ := sortList_ordered Directory.name hreading.subdirs hsubdirs
    obtain ⟨hfileOrder, hfileMem⟩ := sortList_ordered File.name hreading.files hfiles
    exact ⟨hsubdirOrder, hfileOrder, hreading.name_eq,
      fun subdir hmem => hreading.bare subdir (hsubdirMem subdir hmem),
      fun subdir hmem => hreading.subdirs subdir (hsubdirMem subdir hmem),
      fun file hmem => hreading.files file (hfileMem file hmem)⟩
  refine ((readDirectory_exactly h).and hkeeps).imp Iff.rfl fun directory hboth => ?_
  obtain ⟨hlisted, hsubdirs, hfiles, hreading⟩ := hboth
  exact ⟨⟨⟨hlisted.subdirs, hsubdirs⟩, ⟨hlisted.files, hfiles⟩⟩, hreading⟩

/-! ## The path -/

/-- A path in a `DirPath` of some size. -/
structure Walking (size : Nat) (path : List UInt8) (w : Walk) : Prop where
  within : w.dirPath.Within path
  size : w.dirPath.size = size

section

variable {size : Nat} {path : List UInt8} {w : Walk}

theorem Walking.length_lt (h : Walking size path w) (hsize : size < 2 ^ 28) :
    path.length < 2 ^ 29 + 16 := by
  have hle := h.within.growing.le_room
  rw [h.size, h.within.length] at hle
  unfold room at hle
  omega

theorem appendChar_walking (h : Walking size path w) (hsize : size < 2 ^ 28) (ch : UInt8)
    (hpos : path ≠ []) :
    Exactly (path.length + 1 < room size) (Walking size (path ++ [ch])) (w.appendChar ch) := by
  have hlt := h.length_lt hsize
  have hlength := h.within.length
  have happend := appendChar_exactly (w.garbage 0) h.within ch
    (fun _ => by rw [hlength]; exact List.length_pos_iff.mpr hpos) (by omega)
  rw [hlength, h.size] at happend
  exact happend.bind_pure fun b hb => ⟨hb.1, hb.2⟩

theorem appendString_walking (h : Walking size path w) (hsize : size < 2 ^ 28) {name : List UInt8}
    (hnul : 0 ∉ name) (hle : name.length ≤ 255) :
    Exactly ((path ++ name).length < room size) (Walking size (path ++ name))
      (w.appendString name) := by
  have hlt := h.length_lt hsize
  have hlength := h.within.length
  have happend := appendString_exactly (w.garbage 0) h.within hnul (by omega)
  rw [hlength, h.size, ← List.length_append] at happend
  exact happend.bind_pure fun b hb => ⟨hb.1, hb.2⟩

theorem reduceLength_walking {name : List UInt8} (h : Walking size (path ++ name) w) :
    ∃ w', w.reduceLength path.length = some w' ∧ Walking size path w' := by
  obtain ⟨b, hcut, hwithin, hsize⟩ := reduceLength_within h.within
    (show path.length ≤ w.dirPath.length by
      rw [h.within.length, List.length_append]
      exact Nat.le_add_right _ _)
  rw [List.take_left] at hwithin
  refine ⟨{ w with dirPath := b }, ?_, hwithin, hsize.trans h.size⟩
  rw [Walk.reduceLength, hcut]
  rfl

end

/-! ## Listing -/

section

variable {fs : FileSystem} {isRecursive : Bool} {size depth : Nat} {path : List UInt8}

/-- Every tree of some depth is listed. -/
def ListsTrees (fs : FileSystem) (isRecursive : Bool) (size depth : Nat) : Prop :=
  ∀ path name w, Opens fs isRecursive depth path → 0 ∉ path → Walking size path w →
    Exactly (∀ dir ∈ visited fs isRecursive depth path, Listable fs size dir)
      (fun r => Mirrors fs isRecursive depth path r.1 ∧ r.1.name = name ∧ Walking size path r.2)
      (listContents fs isRecursive depth ⟨name, none, none⟩ w)

/-- A subdirectory before it is listed. -/
structure Awaits (fs : FileSystem) (isRecursive : Bool) (depth : Nat) (path : List UInt8)
    (subdir : Directory) : Prop where
  bare : subdir.Bare
  notNul : 0 ∉ subdir.name
  le : subdir.name.length ≤ 255
  opens : Opens fs isRecursive depth (child path subdir.name)

theorem mem_visited (h : Opens fs isRecursive depth path) : path ∈ visited fs isRecursive depth path := by
  cases depth with
  | zero => exact absurd h id
  | succ depth => exact List.mem_cons_self

theorem child_notNul {name : List UInt8} (hpath : 0 ∉ path) (hname : 0 ∉ name) : 0 ∉ child path name := by
  unfold child
  rw [List.mem_append, List.mem_cons, not_or, not_or]
  exact ⟨hpath, by decide, hname⟩

/-- **The subdirectories of a directory**, one after the other. -/
theorem listSubdirs_exactly (hlist : ListsTrees fs isRecursive size depth) (hsize : size < 2 ^ 28)
    (hpath : 0 ∉ path) (subdirs : List Directory) :
    ∀ {w : Walk}, (∀ subdir ∈ subdirs, Awaits fs isRecursive depth path subdir) →
      Walking size (path ++ [SLASH]) w →
      Exactly (∀ subdir ∈ subdirs, ∀ dir ∈ visited fs isRecursive depth (child path subdir.name),
          Listable fs size dir)
        (fun r => r.1.map Directory.name = subdirs.map Directory.name ∧
          (∀ subdir ∈ r.1, Mirrors fs isRecursive depth (child path subdir.name) subdir) ∧
          Walking size (path ++ [SLASH]) r.2)
        (listSubdirs (listContents fs isRecursive depth) (path ++ [SLASH]).length subdirs w) := by
  induction subdirs with
  | nil =>
    intro w _ h
    exact (Exactly.some ⟨rfl, nofun, h⟩).cond (iff_of_true trivial nofun)
  | cons subdir subdirs ih =>
    intro w hawait h
    obtain ⟨hbare, hnul, hle, hopens⟩ := hawait subdir List.mem_cons_self
    obtain ⟨name, subdirList, fileList⟩ := subdir
    obtain ⟨rfl, rfl⟩ := hbare
    have happend := appendString_walking h hsize hnul hle
    rw [append_child] at happend
    refine (happend.bind fun w₁ h₁ => ?_).cond
      (P := _ ∧ (∀ dir ∈ visited fs isRecursive depth (child path name), Listable fs size dir) ∧
        ∀ subdir ∈ subdirs, ∀ dir ∈ visited fs isRecursive depth (child path subdir.name),
          Listable fs size dir) ?_
    · refine (hlist _ name w₁ hopens (child_notNul hpath hnul) h₁).bind fun r hr => ?_
      obtain ⟨listed, w₂⟩ := r
      obtain ⟨hmirrors, hname, h₂⟩ := hr
      dsimp only at hmirrors hname h₂ ⊢
      rw [← append_child] at h₂
      obtain ⟨w₃, hcut, h₃⟩ := reduceLength_walking h₂
      refine Exactly.bind_some hcut ?_
      refine (ih (fun subdir hmem => hawait subdir (List.mem_cons_of_mem _ hmem)) h₃).bind_pure
        fun r hr => ?_
      obtain ⟨hnames, hrest, h₄⟩ := hr
      refine ⟨?_, ?_, h₄⟩
      · show listed.name :: r.1.map Directory.name = name :: subdirs.map Directory.name
        rw [hname, hnames]
      · intro subdir hmem
        rcases List.mem_cons.mp hmem with rfl | hmem
        · rw [hname]
          exact hmirrors
        · exact hrest subdir hmem
    · rw [List.forall_mem_cons]
      refine ⟨fun hp => hp.2, fun hp => ⟨?_, hp⟩⟩
      exact Nat.lt_of_succ_lt (hp.1 _ (mem_visited hopens)).slash_room

theorem elements_withSubdirs {directory : Directory} {subdirs : List Directory}
    (hnames : subdirs.map Directory.name = (elements directory.subdirList).map Directory.name) :
    elements (directory.withSubdirs subdirs).subdirList = subdirs := by
  unfold Directory.withSubdirs
  cases hlist : directory.subdirList with
  | some list => rfl
  | none =>
    rw [hlist] at hnames
    exact (List.map_eq_nil_iff.mp hnames).symm

/-- A tree by the directory at its top. -/
theorem listable_succ {entries : List Dirent} (hopen : opendir fs path = some entries) :
    (∀ dir ∈ visited fs isRecursive (depth + 1) path, Listable fs size dir) ↔
      (Sortable (subdirNames entries).length ∧ Sortable (fileNames entries).length) ∧
        path.length + 1 < room size ∧ ∀ name ∈ goneInto isRecursive entries,
          ∀ dir ∈ visited fs isRecursive depth (child path name), Listable fs size dir := by
  have hget : (opendir fs path).getD [] = entries := by
    rw [hopen]
    rfl
  rw [visited, hget, List.forall_mem_cons]
  constructor
  · intro ⟨⟨hsubdirs, hfiles, hslash⟩, hbelow⟩
    rw [hget] at hsubdirs hfiles
    refine ⟨⟨hsubdirs, hfiles⟩, hslash, fun name hname dir hdir => ?_⟩
    exact hbelow dir (List.mem_flatMap.mpr ⟨name, hname, hdir⟩)
  · intro ⟨⟨hsubdirs, hfiles⟩, hslash, hbelow⟩
    rw [← hget] at hsubdirs hfiles
    refine ⟨⟨hsubdirs, hfiles, hslash⟩, fun dir hdir => ?_⟩
    obtain ⟨name, hname, hdir⟩ := List.mem_flatMap.mp hdir
    exact hbelow name hname dir hdir

/-- **`listContents` on a tree**, by its depth. -/
theorem listContents_exactly (fs : FileSystem) (isRecursive : Bool) (hsize : size < 2 ^ 28)
    (depth : Nat) : ListsTrees fs isRecursive size depth := by
  induction depth with
  | zero => exact fun _ _ _ hopens => absurd hopens id
  | succ depth ih =>
    intro path name w hopens hpath h
    obtain ⟨entries, hopen, hbelow⟩ := hopens
    have hne := opendir_ne hopen
    unfold listContents
    refine Exactly.bind_some (h.within.text hpath) (Exactly.cond ?_ (listable_succ hopen).symm)
    refine (readDirectory_lists name hopen).bind fun directory hdirectory => ?_
    obtain ⟨hlists, hreading⟩ := hdirectory
    refine (appendChar_walking h hsize SLASH hne).bind fun w₁ h₁ => ?_
    have hback : ∀ w₂, Walking size (path ++ [SLASH]) w₂ →
        ∃ w₃, w₂.reduceLength ((path ++ [SLASH]).length - 1) = some w₃ ∧ Walking size path w₃ := by
      intro w₂ h₂
      rw [List.length_append, List.length_singleton, Nat.add_sub_cancel]
      exact reduceLength_walking h₂
    rw [h₁.within.length]
    cases isRecursive with
    | false =>
      obtain ⟨w₂, hcut, h₂⟩ := hback w₁ h₁
      rw [if_neg Bool.false_ne_true]
      refine Exactly.bind_some hcut ((Exactly.some ?_).cond (iff_of_true trivial nofun))
      exact ⟨⟨entries, hopen, hlists, hreading.bare⟩, hreading.name_eq, h₂⟩
    | true =>
      have hmem : ∀ subdir ∈ elements directory.subdirList, subdir.name ∈ subdirNames entries :=
        fun subdir hsubdir => hlists.subdirs.perm.mem_iff.mp (List.mem_map_of_mem hsubdir)
      have hawait : ∀ subdir ∈ elements directory.subdirList, Awaits fs true depth path subdir := by
        intro subdir hsubdir
        obtain ⟨hnul, hle⟩ := of_mem_subdirNames (hmem subdir hsubdir)
        exact ⟨hreading.bare subdir hsubdir, hnul, hle, hbelow _ (hmem subdir hsubdir)⟩
      rw [if_pos rfl]
      have hbelowIff : (∀ subdir ∈ elements directory.subdirList,
            ∀ dir ∈ visited fs true depth (child path subdir.name), Listable fs size dir) ↔
          ∀ name ∈ subdirNames entries, ∀ dir ∈ visited fs true depth (child path name),
            Listable fs size dir := by
        refine ⟨fun hp name hname => ?_, fun hp subdir hsubdir => hp subdir.name (hmem subdir hsubdir)⟩
        obtain ⟨subdir, hsubdir, rfl⟩ := List.mem_map.mp (hlists.subdirs.perm.mem_iff.mpr hname)
        exact hp subdir hsubdir
      refine ((listSubdirs_exactly ih hsize hpath _ hawait h₁).bind fun r hr => ?_).cond
        ((iff_of_eq (and_true _)).trans hbelowIff)
      obtain ⟨subdirs, w₂⟩ := r
      obtain ⟨hnames, hmirrors, h₂⟩ := hr
      obtain ⟨w₃, hcut, h₃⟩ := hback w₂ h₂
      refine Exactly.bind_some hcut (Exactly.some ⟨⟨entries, hopen, ⟨?_, hlists.files⟩, ?_⟩,
        hreading.name_eq, h₃⟩)
      · rw [elements_withSubdirs hnames, hnames]
        exact hlists.subdirs
      · rw [elements_withSubdirs hnames]
        exact hmirrors

end

/-- `listContents` comes back, its structure is what the file system has, and the `DirPath` has the
path that it had. -/
def ListsAll (fs : FileSystem) (isRecursive : Bool) (depth : Nat) (start name : List UInt8)
    (dirPath : DirPath) (garbage : Nat → Mem) : Prop :=
  ∃ directory w, listContents fs isRecursive depth ⟨name, none, none⟩ ⟨dirPath, garbage⟩ =
      some (directory, w) ∧
    Mirrors fs isRecursive depth start directory ∧ w.dirPath.Holds start ∧ w.dirPath.size = dirPath.size

/-- **When `listContents` lists everything**, and that it comes back with nothing else. -/
theorem listContents_iff (fs : FileSystem) (isRecursive : Bool) {start : List UInt8} (hnul : 0 ∉ start)
    {depth : Nat} (hopens : Opens fs isRecursive depth start) (name : List UInt8) {dirPath : DirPath}
    (hholds : dirPath.Holds start) (hsize : dirPath.size < 2 ^ 28) (garbage : Nat → Mem) :
    (ListsAll fs isRecursive depth start name dirPath garbage ↔
        ∀ dir ∈ visited fs isRecursive depth start, Listable fs dirPath.size dir) ∧
      ((∃ r, listContents fs isRecursive depth ⟨name, none, none⟩ ⟨dirPath, garbage⟩ = some r) →
        ListsAll fs isRecursive depth start name dirPath garbage) := by
  have hexactly := listContents_exactly fs isRecursive hsize depth start name ⟨dirPath, garbage⟩ hopens
    hnul ⟨hholds.within, rfl⟩
  have hcomes : (∀ dir ∈ visited fs isRecursive depth start, Listable fs dirPath.size dir) →
      ListsAll fs isRecursive depth start name dirPath garbage := by
    intro hp
    obtain ⟨⟨directory, w⟩, hrun, hmirrors, _, hw⟩ := hexactly.comes hp
    refine ⟨directory, w, hrun, hmirrors, hw.within.holds ?_, hw.size⟩
    rw [hw.size, hw.within.length, ← hholds.length]
    exact hholds.length_lt
  have hreturned : (∃ r, listContents fs isRecursive depth ⟨name, none, none⟩ ⟨dirPath, garbage⟩ = some r) →
      ∀ dir ∈ visited fs isRecursive depth start, Listable fs dirPath.size dir := by
    intro ⟨r, hrun⟩
    by_contra hno
    rw [hexactly.fails hno] at hrun
    cases hrun
  refine ⟨⟨fun ⟨directory, w, hrun, _⟩ => hreturned ⟨_, hrun⟩, hcomes⟩, fun hrun => ?_⟩
  exact hcomes (hreturned hrun)

/-- A subdirectory with a short name. -/
def shortDirectory (c : UInt8) (h : c ≠ 0) : Dirent :=
  { shortFile c h with d_type := DT_DIR }

theorem letter_a : (0x61 : UInt8) ≠ 0 := by decide

theorem letter_b : (0x62 : UInt8) ≠ 0 := by decide

/-- The directory `d`, with `a` and `b` in it; `b` has two files. -/
def twoLevels : FileSystem := fun path =>
  if path = [0x64] then some [shortDirectory 0x62 letter_b, shortDirectory 0x61 letter_a]
  else if path = child [0x64] [0x61] then some []
  else if path = child [0x64] [0x62] then some twoFiles
  else none

theorem twoLevels_readable : Readable twoLevels 2 [0x64] := by
  refine ⟨_, rfl, fun name hname => ?_⟩
  have hcases : name = [0x62] ∨ name = [0x61] := by
    simpa [subdirNames, shortDirectory, shortFile, DT_DIR, IsDots, DOT] using hname
  rcases hcases with rfl | rfl
  · exact ⟨twoFiles, rfl, List.forall_mem_nil _⟩
  · exact ⟨[], rfl, List.forall_mem_nil _⟩

theorem listContents_iff_twoLevels :
    (ListsAll twoLevels true 2 [0x64] [0x64] shortPath (fun _ _ => 0) ↔
        ∀ dir ∈ visited twoLevels true 2 [0x64], Listable twoLevels shortPath.size dir) ∧
      ((∃ r, listContents twoLevels true 2 ⟨[0x64], none, none⟩ ⟨shortPath, fun _ _ => 0⟩ = some r) →
        ListsAll twoLevels true 2 [0x64] [0x64] shortPath (fun _ _ => 0)) :=
  listContents_iff _ true (by decide) (opens_iff_readable.mpr twoLevels_readable) _ shortPath_holds
    (by decide) _

/-! ## Printing what is listed -/

/-- A directory, and below it each of its subdirectories, under its own path. -/
def report : Nat → List UInt8 → Directory → List UInt8
  | 0, _, _ => []
  | depth + 1, path, directory =>
    heading path directory ++ (elements directory.subdirList).flatMap fun subdir =>
      report depth (child path subdir.name) subdir

/-- What is behind the path after printing. -/
def slashLeft (directory : Directory) : List UInt8 :=
  if 0 < (elements directory.subdirList).length then [SLASH] else []

section

variable {fs : FileSystem} {size depth : Nat} {path : List UInt8}

/-- Every listing of some depth is printed. -/
def PrintsTrees (fs : FileSystem) (size depth : Nat) : Prop :=
  ∀ path directory w, Mirrors fs true depth path directory → 0 ∉ path →
    (∀ dir ∈ visited fs true depth path, dir.length + 1 < room size) → Walking size path w →
    ∃ w', printDirectory depth directory w = some (report depth path directory, w') ∧
      Walking size (path ++ slashLeft directory) w'

/-- A subdirectory before it is printed. -/
structure Printable (fs : FileSystem) (size depth : Nat) (path : List UInt8) (subdir : Directory) :
    Prop where
  notNul : 0 ∉ subdir.name
  le : subdir.name.length ≤ 255
  mirrors : Mirrors fs true depth (child path subdir.name) subdir
  rooms : ∀ dir ∈ visited fs true depth (child path subdir.name), dir.length + 1 < room size

theorem Mirrors.mem_visited {isRecursive : Bool} {directory : Directory}
    (h : Mirrors fs isRecursive depth path directory) : path ∈ visited fs isRecursive depth path := by
  cases depth with
  | zero => exact absurd h id
  | succ depth => exact List.mem_cons_self

/-- **The subdirectories**, after some output. -/
theorem printSubdirs_reports (hprint : PrintsTrees fs size depth) (hsize : size < 2 ^ 28)
    (hpath : 0 ∉ path) (subdirs : List Directory) :
    ∀ {output : List UInt8} {w : Walk}, (∀ subdir ∈ subdirs, Printable fs size depth path subdir) →
      Walking size (path ++ [SLASH]) w →
      ∃ w', subdirs.foldlM (printSubdir (printDirectory depth) (path ++ [SLASH]).length) (output, w) =
          some (output ++ subdirs.flatMap fun subdir => report depth (child path subdir.name) subdir, w') ∧
        Walking size (path ++ [SLASH]) w' := by
  induction subdirs with
  | nil =>
    intro output w _ h
    rw [List.flatMap_nil, List.append_nil]
    exact ⟨w, rfl, h⟩
  | cons subdir subdirs ih =>
    intro output w hall h
    obtain ⟨hnul, hle, hmirrors, hrooms⟩ := hall subdir List.mem_cons_self
    have happend := appendString_walking h hsize hnul hle
    rw [append_child] at happend
    obtain ⟨w₁, hw₁, h₁⟩ := happend.comes (Nat.lt_of_succ_lt (hrooms _ hmirrors.mem_visited))
    obtain ⟨w₂, hw₂, h₂⟩ := hprint _ subdir w₁ hmirrors (child_notNul hpath hnul) hrooms h₁
    rw [← append_child, List.append_assoc] at h₂
    obtain ⟨w₃, hw₃, h₃⟩ := reduceLength_walking h₂
    obtain ⟨w₄, hw₄, h₄⟩ := @ih (output ++ report depth (child path subdir.name) subdir) _
      (fun subdir hmem => hall subdir (List.mem_cons_of_mem _ hmem)) h₃
    have hround : printSubdir (printDirectory depth) (path ++ [SLASH]).length (output, w) subdir =
        some (output ++ report depth (child path subdir.name) subdir, w₃) := by
      simp only [printSubdir, hw₁, hw₂, hw₃, Option.bind_eq_bind, Option.bind_some]
      rfl
    refine ⟨w₄, ?_, h₄⟩
    rw [List.foldlM_cons, hround, List.flatMap_cons, ← List.append_assoc]
    exact hw₄

/-- **`printDirectory` on a listing**, by its depth. -/
theorem printDirectory_reports (fs : FileSystem) (hsize : size < 2 ^ 28) (depth : Nat) :
    PrintsTrees fs size depth := by
  induction depth with
  | zero => exact fun _ _ _ hmirrors => absurd hmirrors id
  | succ depth ih =>
    intro path directory w hmirrors hpath hrooms h
    obtain ⟨entries, hopen, hlists, hbelow⟩ := hmirrors
    have hget : (opendir fs path).getD [] = entries := by
      rw [hopen]
      rfl
    rw [visited, hget, List.forall_mem_cons] at hrooms
    obtain ⟨hslash, hrooms⟩ := hrooms
    rw [printDirectory, report, slashLeft, h.within.text hpath]
    simp only [Option.bind_eq_bind, Option.bind_some]
    by_cases hsome : 0 < (elements directory.subdirList).length
    · rw [if_pos hsome, if_pos hsome]
      obtain ⟨w₁, hw₁, h₁⟩ :=
        (appendChar_walking h hsize SLASH (opendir_ne hopen)).comes hslash
      have hlength : (w.dirPath.length + 1) % 2 ^ 32 = (path ++ [SLASH]).length := by
        have hlt := h.length_lt hsize
        rw [h.within.length, List.length_append, List.length_singleton, Nat.mod_eq_of_lt (by omega)]
      rw [hw₁, hlength, Option.bind_some]
      refine printSubdirs_reports ih hsize hpath _ (fun subdir hsubdir => ?_) h₁
      have hname := hlists.subdirs.perm.mem_iff.mp (List.mem_map_of_mem hsubdir)
      obtain ⟨hnul, hle⟩ := of_mem_subdirNames hname
      refine ⟨hnul, hle, hbelow subdir hsubdir, fun dir hdir => hrooms dir ?_⟩
      exact List.mem_flatMap.mpr ⟨subdir.name, hname, hdir⟩
    · have hnil := List.length_eq_zero_iff.mp (Nat.eq_zero_of_not_pos hsome)
      rw [if_neg hsome, if_neg hsome, hnil, List.flatMap_nil, List.append_nil, List.append_nil]
      exact ⟨w, rfl, h⟩

end

/-- **What is listed is printed**, each directory under its own path. A path that has
subdirectories below it is left with a slash. -/
theorem listing_printed (fs : FileSystem) {start : List UInt8} (hnul : 0 ∉ start) {depth : Nat}
    (hopens : Opens fs true depth start) (name : List UInt8) {dirPath : DirPath}
    (hholds : dirPath.Holds start) (hsize : dirPath.size < 2 ^ 28) (garbage : Nat → Mem)
    {directory : Directory} {w : Walk}
    (hlist : listContents fs true depth ⟨name, none, none⟩ ⟨dirPath, garbage⟩ = some (directory, w)) :
    ∃ w', printDirectory depth directory w = some (report depth start directory, w') ∧
      w'.dirPath.Within (start ++ slashLeft directory) := by
  have hexactly := listContents_exactly fs true hsize depth start name ⟨dirPath, garbage⟩ hopens
    hnul ⟨hholds.within, rfl⟩
  have hall : ∀ dir ∈ visited fs true depth start, Listable fs dirPath.size dir := by
    by_contra hno
    rw [hexactly.fails hno] at hlist
    cases hlist
  obtain ⟨r, hrun, hmirrors, _, hw⟩ := hexactly.comes hall
  rw [hlist, Option.some.injEq] at hrun
  subst hrun
  obtain ⟨w', hprint, hw'⟩ := printDirectory_reports fs hsize depth start directory w hmirrors hnul
    (fun dir hdir => (hall dir hdir).slash_room) hw
  exact ⟨w', hprint, hw'.within⟩

instance (count : Nat) : Decidable (Sortable count) := inferInstanceAs (Decidable (_ ∧ _))

theorem twoLevels_fits : TreeFits twoLevels (fun _ => true) shortPath.size [] 2 [0x64] [] := by
  have hdirectories : directories twoLevels 2 [0x64] =
      [[0x64], child [0x64] [0x62], child [0x64] [0x61]] := by decide
  refine ⟨?_, by decide⟩
  rw [hdirectories, List.forall_mem_cons, List.forall_mem_cons, List.forall_mem_singleton]
  exact ⟨⟨by decide, by decide, by decide, by decide, by decide⟩,
    ⟨by decide, by decide, by decide, by decide, by decide⟩,
    ⟨by decide, by decide, by decide, by decide, by decide⟩⟩

theorem twoLevels_listed :
    ∃ r, listContents twoLevels true 2 ⟨[0x64], none, none⟩ ⟨shortPath, fun _ _ => 0⟩ = some r := by
  have hexactly := listContents_exactly twoLevels true (by decide) 2 [0x64] [0x64]
    ⟨shortPath, fun _ _ => 0⟩ (opens_iff_readable.mpr twoLevels_readable) (by decide)
    ⟨shortPath_holds.within, rfl⟩
  obtain ⟨r, hrun, _⟩ := hexactly.comes fun dir hdir => by
    rw [visited_eq_directories] at hdir
    have hsound := twoLevels_fits.1 dir hdir
    exact ⟨hsound.subdirs, hsound.files, hsound.slash_room⟩
  exact ⟨r, hrun⟩

theorem listing_printed_twoLevels :
    ∃ directory w, listContents twoLevels true 2 ⟨[0x64], none, none⟩ ⟨shortPath, fun _ _ => 0⟩ =
        some (directory, w) ∧
      ∃ w', printDirectory 2 directory w = some (report 2 [0x64] directory, w') ∧
        w'.dirPath.Within ([0x64] ++ slashLeft directory) := by
  obtain ⟨⟨directory, w⟩, hlist⟩ := twoLevels_listed
  exact ⟨directory, w, hlist, listing_printed twoLevels (by decide)
    (opens_iff_readable.mpr twoLevels_readable) _ shortPath_holds (by decide) _ hlist⟩

/-! ## Finding what is listed -/

/-- The files of a listing that match. -/
def filesIn (isMatch : List UInt8 → Bool) : Nat → List UInt8 → Directory → List (List UInt8)
  | 0, _, _ => []
  | depth + 1, path, directory =>
    ((elements directory.subdirList).flatMap fun subdir =>
      filesIn isMatch depth (child path subdir.name) subdir) ++
    (((elements directory.fileList).map File.name).filter isMatch).map (child path)

theorem Mirrors.filesIn_perm {fs : FileSystem} (isMatch : List UInt8 → Bool) {depth : Nat} :
    ∀ {path : List UInt8} {directory : Directory}, Mirrors fs true depth path directory →
      (filesIn isMatch depth path directory).Perm (matching fs isMatch depth path) := by
  induction depth with
  | zero => exact fun h => absurd h id
  | succ depth ih =>
    intro path directory h
    obtain ⟨entries, hopen, hlists, hbelow⟩ := h
    have hget : (opendir fs path).getD [] = entries := by
      rw [hopen]
      rfl
    rw [filesIn, matching, hget]
    refine List.Perm.append ?_ ((hlists.files.perm.filter isMatch).map (child path))
    have hsubdirs := hlists.subdirs.perm.flatMap_right fun name => matching fs isMatch depth (child path name)
    rw [List.flatMap_map] at hsubdirs
    exact (List.Perm.flatMap_left _ fun subdir hmem => ih (hbelow subdir hmem)).trans hsubdirs

/-- **`find` finds what is listed.** Where it comes back, `listContents` comes back on the same
path, and the paths are those of the files of the listing that match. -/
theorem find_in_listing (fs : FileSystem) (isMatch : List UInt8 → Bool) {start : List UInt8}
    (hnul : 0 ∉ start) {depth : Nat} (hread : Readable fs depth start) (name : List UInt8)
    {dirPath : DirPath} (hholds : dirPath.Holds start) (hsize : dirPath.size < 2 ^ 28)
    (garbage garbage' : Nat → Mem) {s : Search}
    (hfind : find fs isMatch depth ⟨initFilePathList, dirPath, garbage⟩ = some s) :
    ∃ directory w, listContents fs true depth ⟨name, none, none⟩ ⟨dirPath, garbage'⟩ =
        some (directory, w) ∧
      Mirrors fs true depth start directory ∧
      Holding s.filePathList.values (filesIn isMatch depth start directory) := by
  have hstart : Searching dirPath.size [] start [] ⟨initFilePathList, dirPath, garbage⟩ :=
    ⟨hholds.within, rfl, ⟨Nat.zero_le _, 6, by decide, rfl⟩, [], rfl, Holding.nil⟩
  have hfinds := find_exactly fs isMatch dirPath.size [] depth start [] _ hread hnul hstart
  have hfits : TreeFits fs isMatch dirPath.size [] depth start [] := by
    by_contra hno
    rw [hfinds.fails hno] at hfind
    cases hfind
  obtain ⟨s', hrun, hs'⟩ := hfinds.comes hfits
  rw [hfind, Option.some.injEq] at hrun
  subst hrun
  have hlistable : ∀ dir ∈ visited fs true depth start, Listable fs dirPath.size dir := by
    intro dir hdir
    rw [visited_eq_directories] at hdir
    have hsound := hfits.1 dir hdir
    exact ⟨hsound.subdirs, hsound.files, hsound.slash_room⟩
  obtain ⟨⟨directory, w⟩, hlist, hmirrors, _, _⟩ :=
    (listContents_exactly fs true hsize depth start name ⟨dirPath, garbage'⟩
      (opens_iff_readable.mpr hread) hnul ⟨hholds.within, rfl⟩).comes hlistable
  obtain ⟨more, hvalues, hmore⟩ := hs'.added
  rw [List.nil_append] at hvalues hmore
  refine ⟨directory, w, hlist, hmirrors, ?_⟩
  rw [hvalues]
  exact hmore.perm (hmirrors.filesIn_perm isMatch).symm

theorem find_in_listing_twoLevels :
    ∃ s, find twoLevels (fun _ => true) 2 ⟨initFilePathList, shortPath, fun _ _ => 0⟩ = some s ∧
      ∃ directory w, listContents twoLevels true 2 ⟨[0x64], none, none⟩ ⟨shortPath, fun _ _ => 0⟩ =
          some (directory, w) ∧
        Mirrors twoLevels true 2 [0x64] directory ∧
        Holding s.filePathList.values (filesIn (fun _ => true) 2 [0x64] directory) := by
  have hstart : Searching shortPath.size [] [0x64] [] ⟨initFilePathList, shortPath, fun _ _ => 0⟩ :=
    ⟨shortPath_holds.within, rfl, ⟨Nat.zero_le _, 6, by decide, rfl⟩, [], rfl, Holding.nil⟩
  obtain ⟨s, hfind, _⟩ := (find_exactly twoLevels (fun _ => true) shortPath.size [] 2 [0x64] [] _
    twoLevels_readable (by decide) hstart).comes twoLevels_fits
  exact ⟨s, hfind, find_in_listing twoLevels _ (by decide) twoLevels_readable _ shortPath_holds
    (by decide) _ _ hfind⟩

end DevopsBroker.Fs
