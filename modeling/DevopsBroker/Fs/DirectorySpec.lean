import DevopsBroker.Fs.Directory
import DevopsBroker.Lang.StringBuilderRoom
import DevopsBroker.Lang.StringCopy
import DevopsBroker.Lib.Text
import Mathlib.Data.List.Forall2

/-!
# `find` against the tree

The tree below a path is said by the file system alone: its directories, and the files in them
that match. `find` goes through all of it, and its list gets each of these files once, exactly
where every directory is `Sound` and the list has room: a directory with one subdirectory, or one
file, is not sorted, a long path does not go into the `Directory` on the stack, and the path has
to fit into the buffer of the `DirPath`.
-/

namespace DevopsBroker.Fs

open DevopsBroker.Adt DevopsBroker.Lang DevopsBroker.Lang.StringBuilder DevopsBroker.Lib

/-! ## The tree -/

/-- The subdirectories among the entries. -/
def subdirNames (entries : List Dirent) : List (List UInt8) :=
  (entries.filter fun e => e.d_type = DT_DIR ∧ ¬ IsDots e.d_name).map Dirent.d_name

/-- The regular files among them. -/
def fileNames (entries : List Dirent) : List (List UInt8) :=
  (entries.filter fun e => e.d_type = DT_REG).map Dirent.d_name

/-- The path of what has a name in a directory. -/
def child (path name : List UInt8) : List UInt8 := path ++ SLASH :: name

/-- A tree can be read, down to its leaves. -/
def Readable (fs : FileSystem) : Nat → List UInt8 → Prop
  | 0, _ => False
  | depth + 1, path =>
    ∃ entries, opendir fs path = some entries ∧ ∀ name ∈ subdirNames entries,
      Readable fs depth (child path name)

/-- The directories of a tree. -/
def directories (fs : FileSystem) : Nat → List UInt8 → List (List UInt8)
  | 0, _ => []
  | depth + 1, path =>
    path :: (subdirNames ((opendir fs path).getD [])).flatMap fun name =>
      directories fs depth (child path name)

/-- The files of a tree that match, one after the other. -/
def matching (fs : FileSystem) (isMatch : List UInt8 → Bool) : Nat → List UInt8 → List (List UInt8)
  | 0, _ => []
  | depth + 1, path =>
    ((subdirNames ((opendir fs path).getD [])).flatMap fun name =>
      matching fs isMatch depth (child path name)) ++
    ((fileNames ((opendir fs path).getD [])).filter isMatch).map (child path)

/-- So many elements can be sorted. -/
def Sortable (count : Nat) : Prop := count ≠ 1 ∧ count < 2 ^ 31

/-- A directory that `find` does not stumble over, with a `DirPath` of some size. -/
structure Sound (fs : FileSystem) (isMatch : List UInt8 → Bool) (size : Nat) (path : List UInt8) :
    Prop where
  subdirs : Sortable (subdirNames ((opendir fs path).getD [])).length
  files : Sortable (fileNames ((opendir fs path).getD [])).length
  length_lt : path.length < SIZEOF_DIRECTORY
  slash_room : path.length + 1 < room size
  file_room : ∀ name ∈ fileNames ((opendir fs path).getD []), isMatch name →
    (child path name).length < room size

/-! ## Reading a directory -/

section

variable {entries : List Dirent}

theorem subdirNames_append (entries more : List Dirent) :
    subdirNames (entries ++ more) = subdirNames entries ++ subdirNames more := by
  unfold subdirNames
  rw [List.filter_append, List.map_append]

theorem fileNames_append (entries more : List Dirent) :
    fileNames (entries ++ more) = fileNames entries ++ fileNames more := by
  unfold fileNames
  rw [List.filter_append, List.map_append]

/-- A list of some structures, by their names. -/
structure Names {α : Type} (name : α → List UInt8) (list : Option (ListOf α))
    (names : List (List UInt8)) : Prop where
  names : (elements list).map name = names
  doubling : (list.getD ListOf.init).Doubling

theorem Names.nil {α : Type} (name : α → List UInt8) : Names name none [] :=
  ⟨rfl, ListOf.init_doubling⟩

theorem elements_eq {α : Type} (list : Option (ListOf α)) :
    elements list = (list.getD ListOf.init).values := by
  cases list <;> rfl

theorem addTo_exactly {α : Type} {name : α → List UInt8} {list : Option (ListOf α)}
    {names : List (List UInt8)} (h : Names name list names) (element : α) :
    Exactly ((names ++ [name element]).length ≤ 2 ^ 31)
      (fun list' => Names name (some list') (names ++ [name element])) (addTo list element) := by
  have hlength : (list.getD ListOf.init).values.length = names.length := by
    rw [← h.names, List.length_map, elements_eq]
  refine (ListOf.add_exactly h.doubling element).imp ?_ fun list' ⟨hdoubling, hvalues⟩ => ⟨?_, hdoubling⟩
  · rw [hlength, List.length_append, List.length_singleton]
    exact Nat.lt_iff_add_one_le
  · show list'.values.map name = _
    rw [hvalues, List.map_append, ← elements_eq, h.names]
    rfl

/-- The lists take so many entries. -/
def Fits (entries : List Dirent) : Prop :=
  (subdirNames entries).length ≤ 2 ^ 31 ∧ (fileNames entries).length ≤ 2 ^ 31

theorem Fits.before {entries more : List Dirent} (h : Fits (entries ++ more)) : Fits entries := by
  unfold Fits at h ⊢
  rw [subdirNames_append, fileNames_append, List.length_append, List.length_append] at h
  omega

/-- The directory after some entries. -/
structure HasRead (directory : Directory) (entries : List Dirent) : Prop where
  subdirs : Names Directory.name directory.subdirList (subdirNames entries)
  files : Names File.name directory.fileList (fileNames entries)
  fits : Fits entries

theorem subdirNames_singleton (e : Dirent) :
    subdirNames [e] = if e.d_type = DT_DIR ∧ ¬ IsDots e.d_name then [e.d_name] else [] := by
  unfold subdirNames
  rw [List.filter_singleton]
  by_cases h : e.d_type = DT_DIR ∧ ¬ IsDots e.d_name
  · rw [if_pos h, decide_eq_true h]
    rfl
  · rw [if_neg h, decide_eq_false h]
    rfl

theorem fileNames_singleton (e : Dirent) :
    fileNames [e] = if e.d_type = DT_REG then [e.d_name] else [] := by
  unfold fileNames
  rw [List.filter_singleton]
  by_cases h : e.d_type = DT_REG
  · rw [if_pos h, decide_eq_true h]
    rfl
  · rw [if_neg h, decide_eq_false h]
    rfl

/-- A name goes into the structures. -/
theorem initDirectory_name (e : Dirent) :
    initDirectory e.d_name = some ⟨e.d_name, none, none⟩ := by
  have hle := e.le
  have htake : e.d_name.take SIZEOF_NAME = e.d_name := by
    unfold SIZEOF_NAME
    exact List.take_of_length_le (by omega)
  unfold initDirectory copyInto SIZEOF_DIRECTORY
  rw [if_pos (by omega)]
  simp only [Option.bind_eq_bind, Option.bind_some, htake]
  rfl

theorem createFile_name (e : Dirent) : createFile e.d_name = some ⟨e.d_name⟩ := by
  have hle := e.le
  unfold createFile copyInto SIZEOF_FILE
  rw [if_pos (by omega)]
  rfl

/-- A name has a result in `copyInto` exactly where the copy stays inside of the object. -/
theorem copyInto_inside {mem : Mem} {source dest : Nat} {name : List UInt8} (size : Nat)
    (htext : TextAt mem source name)
    (happart : name.length < 8 ∨ dest ≤ source ∨ source + name.length < dest) :
    ∃ t, Returns (fun fuel => copy fuel mem source dest) (dest, t) ∧
      ((copyInto size name).isSome = true ↔
        Region.cover t.writes ⊆ Finset.Ico dest (dest + size)) := by
  obtain ⟨t, hreturns, hstored⟩ := copy_stored htext happart
  refine ⟨t, hreturns, ?_⟩
  have hlength : (name ++ [0]).length = name.length + 1 := List.length_append
  rw [hstored.writes, hlength, Finset.Ico_subset_Ico_iff (by omega)]
  unfold copyInto
  by_cases hlt : name.length < size
  · rw [if_pos hlt]
    exact ⟨fun _ => by omega, fun _ => rfl⟩
  · rw [if_neg hlt]
    exact ⟨fun h => absurd h (by decide), fun h => absurd h (by omega)⟩

/-- **One entry.** -/
theorem readEntry_exactly {directory : Directory} {entries : List Dirent} (h : HasRead directory entries)
    (e : Dirent) :
    Exactly (Fits (entries ++ [e])) (fun directory' => HasRead directory' (entries ++ [e]))
      (readEntry directory e) := by
  have hsubdirs := subdirNames_append entries [e]
  have hfiles := fileNames_append entries [e]
  rw [subdirNames_singleton] at hsubdirs
  rw [fileNames_singleton] at hfiles
  -- nothing changes for an entry that is neither
  have hsame : subdirNames (entries ++ [e]) = subdirNames entries →
      fileNames (entries ++ [e]) = fileNames entries →
      Exactly (Fits (entries ++ [e])) (fun directory' => HasRead directory' (entries ++ [e]))
        (some directory) := by
    intro hs hf
    have hfits : Fits (entries ++ [e]) := by
      unfold Fits
      rw [hs, hf]
      exact h.fits
    refine (Exactly.some ⟨?_, ?_, hfits⟩).cond (iff_of_true trivial hfits)
    · rw [hs]
      exact h.subdirs
    · rw [hf]
      exact h.files
  unfold readEntry
  by_cases hdir : e.d_type = DT_DIR
  · have hreg : ¬ e.d_type = DT_REG := by
      rw [hdir]
      decide
    rw [if_pos hdir]
    rw [if_neg hreg, List.append_nil] at hfiles
    by_cases hdots : IsDots e.d_name
    · rw [if_pos hdots]
      rw [if_neg (fun hboth => hboth.2 hdots), List.append_nil] at hsubdirs
      exact hsame hsubdirs hfiles
    · rw [if_neg hdots]
      rw [if_pos ⟨hdir, hdots⟩] at hsubdirs
      have hfits : Fits (entries ++ [e]) ↔ (subdirNames entries ++ [e.d_name]).length ≤ 2 ^ 31 := by
        unfold Fits
        rw [hsubdirs, hfiles]
        exact and_iff_left h.fits.2
      refine Exactly.bind_some (initDirectory_name e) ?_
      refine ⟨fun hp => ?_, fun hno => ?_⟩
      · obtain ⟨list, hadd, hlist⟩ := (addTo_exactly h.subdirs ⟨e.d_name, none, none⟩).comes (hfits.mp hp)
        refine ⟨{ directory with subdirList := some list }, by rw [addSubdir, hadd]; rfl, ?_, ?_, hp⟩
        · rw [hsubdirs]
          exact hlist
        · rw [hfiles]
          exact h.files
      · rw [addSubdir, (addTo_exactly h.subdirs ⟨e.d_name, none, none⟩).fails fun hp => hno (hfits.mpr hp)]
        rfl
  · rw [if_neg hdir]
    rw [if_neg (fun hboth => hdir hboth.1), List.append_nil] at hsubdirs
    by_cases hreg : e.d_type = DT_REG
    · rw [if_pos hreg]
      rw [if_pos hreg] at hfiles
      have hfits : Fits (entries ++ [e]) ↔ (fileNames entries ++ [e.d_name]).length ≤ 2 ^ 31 := by
        unfold Fits
        rw [hsubdirs, hfiles]
        exact and_iff_right h.fits.1
      refine Exactly.bind_some (createFile_name e) ?_
      refine ⟨fun hp => ?_, fun hno => ?_⟩
      · obtain ⟨list, hadd, hlist⟩ := (addTo_exactly h.files ⟨e.d_name⟩).comes (hfits.mp hp)
        refine ⟨{ directory with fileList := some list }, by rw [addFile, hadd]; rfl, ?_, ?_, hp⟩
        · rw [hsubdirs]
          exact h.subdirs
        · rw [hfiles]
          exact hlist
      · rw [addFile, (addTo_exactly h.files ⟨e.d_name⟩).fails fun hp => hno (hfits.mpr hp)]
        rfl
    · rw [if_neg hreg]
      rw [if_neg hreg, List.append_nil] at hfiles
      exact hsame hsubdirs hfiles

/-- A list that is sorted has the names it had. -/
theorem sortList_exactly {α : Type} {name : α → List UInt8} (compare : α → α → Int)
    {list : Option (ListOf α)} {names : List (List UInt8)} (h : Names name list names) :
    Exactly (Sortable names.length)
      (fun list' => ((elements list').map name).Perm names) (sortList compare list) := by
  rw [← h.names]
  cases list with
  | none =>
    have hsortable : Sortable 0 := ⟨Nat.zero_ne_one, by decide⟩
    refine Exactly.cond (Exactly.some ?_) (iff_of_true trivial hsortable)
    exact List.Perm.refl _
  | some list =>
    show Exactly _ _ ((list.sort compare).map some)
    rw [Option.map_eq_bind]
    refine ((ListOf.sort_exactly compare list).bind_pure fun list' hperm => hperm.map name).cond ?_
    rw [List.length_map]
    exact Iff.rfl

/-- What `readDirectory` leaves. -/
structure Listed (directory : Directory) (entries : List Dirent) : Prop where
  subdirs : ((elements directory.subdirList).map Directory.name).Perm (subdirNames entries)
  files : ((elements directory.fileList).map File.name).Perm (fileNames entries)

/-- **All entries, sorted.** -/
theorem readDirectory_exactly {fs : FileSystem} {path name : List UInt8} {entries : List Dirent}
    (h : opendir fs path = some entries) :
    Exactly (Sortable (subdirNames entries).length ∧ Sortable (fileNames entries).length)
      (fun directory => Listed directory entries) (readDirectory fs ⟨name, none, none⟩ path) := by
  have hread := Exactly.foldlM (f := readEntry) (P := Fits) (I := fun before d => HasRead d before)
    (fun _ _ => Fits.before) (fun h => h.fits) entries (fun _ e _ _ hd => readEntry_exactly hd e)
    (show HasRead ⟨name, none, none⟩ [] from
      ⟨Names.nil _, Names.nil _, Nat.zero_le _, Nat.zero_le _⟩)
  rw [List.nil_append] at hread
  have hsort : ∀ directory : Directory, HasRead directory entries →
      Exactly (Sortable (subdirNames entries).length ∧ Sortable (fileNames entries).length)
        (fun directory => Listed directory entries)
        ((sortList compareDirectory directory.subdirList).bind fun subdirList =>
          (sortList compareFile directory.fileList).bind fun fileList =>
            some { directory with subdirList := subdirList, fileList := fileList }) :=
    fun directory hd => (sortList_exactly compareDirectory hd.subdirs).bind fun subdirList hs =>
      (sortList_exactly compareFile hd.files).bind_pure fun fileList hf => ⟨hs, hf⟩
  refine Exactly.bind_some h ((hread.bind hsort).cond ⟨fun hp => hp.2, fun hp => ⟨?_, hp⟩⟩)
  exact ⟨Nat.le_of_lt hp.1.2, Nat.le_of_lt hp.2.2⟩

end

/-! ## The path and the list -/

/-- Blocks that hold the given texts, in some order. -/
def Holding (blocks : List Block) (texts : List (List UInt8)) : Prop :=
  ∃ texts', List.Forall₂ HoldsText blocks texts' ∧ texts'.Perm texts

theorem Holding.nil : Holding [] [] := ⟨[], List.Forall₂.nil, List.Perm.refl _⟩

theorem Holding.append {blocks blocks' : List Block} {texts texts' : List (List UInt8)}
    (h : Holding blocks texts) (h' : Holding blocks' texts') :
    Holding (blocks ++ blocks') (texts ++ texts') := by
  obtain ⟨some, hsome, hperm⟩ := h
  obtain ⟨more, hmore, hperm'⟩ := h'
  exact ⟨some ++ more, List.rel_append hsome hmore, hperm.append hperm'⟩

theorem Holding.perm {blocks : List Block} {texts texts' : List (List UInt8)}
    (h : Holding blocks texts) (hperm : texts.Perm texts') : Holding blocks texts' := by
  obtain ⟨some, hsome, hperm'⟩ := h
  exact ⟨some, hsome, hperm'.trans hperm⟩

theorem Holding.length {blocks : List Block} {texts : List (List UInt8)} (h : Holding blocks texts) :
    blocks.length = texts.length := by
  obtain ⟨some, hsome, hperm⟩ := h
  rw [hsome.length_eq, hperm.length_eq]

/-- A search with some path in a `DirPath` of some size, after these texts were added to a list. -/
structure Searching (size : Nat) (blocks : List Block) (path : List UInt8)
    (texts : List (List UInt8)) (s : Search) : Prop where
  within : s.dirPath.Within path
  size : s.dirPath.size = size
  doubling : s.filePathList.Doubling
  added : ∃ more, s.filePathList.values = blocks ++ more ∧ Holding more texts

section

variable {size : Nat} {blocks : List Block} {path : List UInt8} {texts : List (List UInt8)} {s : Search}

theorem Searching.count (h : Searching size blocks path texts s) :
    s.filePathList.values.length = blocks.length + texts.length := by
  obtain ⟨more, hvalues, hmore⟩ := h.added
  rw [hvalues, List.length_append, hmore.length]

theorem Searching.count_le (h : Searching size blocks path texts s) :
    blocks.length + texts.length ≤ 2 ^ 31 := by
  obtain ⟨hle, k, hk, hsize⟩ := h.doubling
  have hmost : 2 ^ k ≤ 2 ^ 31 := Nat.pow_le_pow_right (by omega) hk
  rw [← h.count]
  omega

theorem Searching.perm {texts' : List (List UInt8)} (h : Searching size blocks path texts s)
    (hperm : texts.Perm texts') : Searching size blocks path texts' s := by
  obtain ⟨more, hvalues, hmore⟩ := h.added
  exact ⟨h.within, h.size, h.doubling, more, hvalues, hmore.perm hperm⟩

theorem appendChar_searching (h : Searching size blocks path texts s) (ch : UInt8) (hpos : path ≠ [])
    (hsmall : path.length + 1 < 2 ^ 30) :
    Exactly (path.length + 1 < room size) (Searching size blocks (path ++ [ch]) texts)
      (s.appendChar ch) := by
  have hlength := h.within.length
  have happend := appendChar_exactly (s.garbage 0) h.within ch
    (fun _ => by rw [hlength]; exact List.length_pos_iff.mpr hpos) (by omega)
  rw [hlength, h.size] at happend
  exact happend.bind_pure fun b hb => ⟨hb.1, hb.2, h.doubling, h.added⟩

theorem appendString_searching (h : Searching size blocks path texts s) {name : List UInt8}
    (hnul : 0 ∉ name) (hsmall : (path ++ name).length < 2 ^ 30) :
    Exactly ((path ++ name).length < room size) (Searching size blocks (path ++ name) texts)
      (s.appendString name) := by
  have hlength := h.within.length
  rw [List.length_append] at hsmall ⊢
  have happend := appendString_exactly (s.garbage 0) h.within hnul (by omega)
  rw [hlength, h.size] at happend
  exact happend.bind_pure fun b hb => ⟨hb.1, hb.2, h.doubling, h.added⟩

theorem reduceLength_searching {name : List UInt8} (h : Searching size blocks (path ++ name) texts s) :
    ∃ s', s.reduceLength path.length = some s' ∧ Searching size blocks path texts s' := by
  obtain ⟨b, hcut, hwithin, hsize⟩ := reduceLength_within h.within
    (show path.length ≤ s.dirPath.length by
      rw [h.within.length, List.length_append]
      exact Nat.le_add_right _ _)
  rw [List.take_left] at hwithin
  refine ⟨{ s with dirPath := b }, ?_, hwithin, hsize.trans h.size, h.doubling, h.added⟩
  rw [Search.reduceLength, hcut]
  rfl

theorem addFilePath_searching (h : Searching size blocks path texts s) {name : List UInt8}
    (hnul : 0 ∉ name) (hpos : path ≠ []) (hsmall : (path ++ name).length < 2 ^ 30) :
    Exactly ((path ++ name).length < room size ∧ blocks.length + texts.length < 2 ^ 31)
      (Searching size blocks path (texts ++ [path ++ name])) (s.addFilePath name) := by
  have hlength := h.within.length
  have hcount := h.count
  rw [List.length_append] at hsmall ⊢
  have hcreate := createString_exactly (s.garbage 0) (s.garbage 1) h.within hnul
    (by rw [hlength]; exact List.length_pos_iff.mpr hpos) (by omega)
  rw [hlength, h.size] at hcreate
  refine hcreate.bind fun r hr => ?_
  obtain ⟨filePath, b⟩ := r
  obtain ⟨⟨block, hblock, htext⟩, hwithin, hsize⟩ := hr
  dsimp only at hblock hwithin hsize ⊢
  rw [hblock, ← hcount]
  refine (ListOf.add_exactly h.doubling block).bind_pure fun list hlist => ?_
  obtain ⟨more, hvalues, hmore⟩ := h.added
  refine ⟨hwithin, hsize, hlist.1, more ++ [block], ?_, hmore.append ?_⟩
  · rw [hlist.2, hvalues, List.append_assoc]
  · exact ⟨[path ++ name], List.Forall₂.cons htext List.Forall₂.nil, List.Perm.refl _⟩

end

/-! ## A directory -/

theorem append_child (path name : List UInt8) : path ++ [SLASH] ++ name = child path name := by
  rw [child, List.append_assoc]
  rfl

theorem length_child (path name : List UInt8) :
    (child path name).length = path.length + 1 + name.length := by
  rw [← append_child, List.length_append, List.length_append]
  rfl

theorem opendir_ne {fs : FileSystem} {path : List UInt8} {entries : List Dirent}
    (h : opendir fs path = some entries) : path ≠ [] := by
  intro hnil
  subst hnil
  cases h

theorem of_mem_subdirNames {entries : List Dirent} {name : List UInt8}
    (h : name ∈ subdirNames entries) : 0 ∉ name ∧ name.length ≤ 255 := by
  obtain ⟨e, _, rfl⟩ := List.mem_map.mp h
  exact ⟨e.notNul, e.le⟩

theorem of_mem_fileNames {entries : List Dirent} {name : List UInt8} (h : name ∈ fileNames entries) :
    0 ∉ name ∧ name.length ≤ 255 := by
  obtain ⟨e, _, rfl⟩ := List.mem_map.mp h
  exact ⟨e.notNul, e.le⟩

section

variable {fs : FileSystem} {isMatch : List UInt8 → Bool} {size : Nat} {blocks : List Block}
  {path : List UInt8} {texts : List (List UInt8)}

/-- The files in a directory that match, with room for their paths. -/
def FilesFit (isMatch : List UInt8 → Bool) (size : Nat) (blocks : List Block) (path : List UInt8)
    (texts : List (List UInt8)) (names : List (List UInt8)) : Prop :=
  (∀ name ∈ names, isMatch name → (child path name).length < room size) ∧
    blocks.length + texts.length + (names.filter isMatch).length ≤ 2 ^ 31

theorem FilesFit.before {names more : List (List UInt8)}
    (h : FilesFit isMatch size blocks path texts (names ++ more)) :
    FilesFit isMatch size blocks path texts names := by
  unfold FilesFit at h ⊢
  rw [List.filter_append, List.length_append, List.forall_mem_append] at h
  exact ⟨h.1.1, by omega⟩

theorem FilesFit.perm {names names' : List (List UInt8)} (h : names.Perm names') :
    FilesFit isMatch size blocks path texts names ↔ FilesFit isMatch size blocks path texts names' := by
  unfold FilesFit
  rw [(h.filter isMatch).length_eq]
  exact and_congr_left' ⟨fun hp name hname => hp name (h.mem_iff.mpr hname),
    fun hp name hname => hp name (h.mem_iff.mp hname)⟩

/-- A search in a directory, after some of its files. -/
structure SearchedFiles (isMatch : List UInt8 → Bool) (size : Nat) (blocks : List Block)
    (path : List UInt8) (texts names : List (List UInt8)) (s : Search) : Prop where
  fit : FilesFit isMatch size blocks path texts names
  searching : Searching size blocks (path ++ [SLASH])
    (texts ++ (names.filter isMatch).map (child path)) s

/-- One file. -/
theorem findFile_exactly {names : List (List UInt8)} {file : File} {s : Search}
    (h : SearchedFiles isMatch size blocks path texts names s) (hnul : 0 ∉ file.name)
    (hsmall : (child path file.name).length < 2 ^ 30) :
    Exactly (FilesFit isMatch size blocks path texts (names ++ [file.name]))
      (SearchedFiles isMatch size blocks path texts (names ++ [file.name])) (findFile isMatch s file) := by
  unfold findFile
  by_cases hmatch : isMatch file.name
  · have hfilter : (names ++ [file.name]).filter isMatch = names.filter isMatch ++ [file.name] := by
      rw [List.filter_append, List.filter_singleton, hmatch]
      rfl
    have hadd := addFilePath_searching h.searching hnul (List.append_ne_nil_of_right_ne_nil _ (by simp))
      (by rw [append_child]; exact hsmall)
    rw [append_child] at hadd
    rw [if_pos hmatch]
    have hfit : FilesFit isMatch size blocks path texts (names ++ [file.name]) ↔
        (child path file.name).length < room size ∧
          blocks.length + (texts ++ (names.filter isMatch).map (child path)).length < 2 ^ 31 := by
      have hbefore := h.fit.1
      unfold FilesFit
      rw [hfilter, List.forall_mem_append, List.forall_mem_singleton, List.length_append,
        List.length_append, List.length_map, List.length_singleton]
      exact ⟨fun hp => ⟨hp.1.2 hmatch, by omega⟩, fun hp => ⟨⟨hbefore, fun _ => hp.1⟩, by omega⟩⟩
    refine ⟨fun hp => ?_, fun hno => hadd.fails fun hp => hno (hfit.mpr hp)⟩
    obtain ⟨s', hrun, hs'⟩ := hadd.comes (hfit.mp hp)
    refine ⟨s', hrun, hp, ?_⟩
    rw [hfilter, List.map_append, ← List.append_assoc]
    exact hs'
  · have hfilter : (names ++ [file.name]).filter isMatch = names.filter isMatch := by
      rw [List.filter_append, List.filter_singleton, Bool.eq_false_of_not_eq_true hmatch]
      exact List.append_nil _
    have hfit : FilesFit isMatch size blocks path texts (names ++ [file.name]) := by
      have hbefore := h.fit
      unfold FilesFit at hbefore ⊢
      rw [hfilter, List.forall_mem_append, List.forall_mem_singleton]
      exact ⟨⟨hbefore.1, fun hyes => absurd hyes hmatch⟩, hbefore.2⟩
    rw [if_neg hmatch]
    refine (Exactly.some ⟨hfit, ?_⟩).cond (iff_of_true trivial hfit)
    rw [hfilter]
    exact h.searching

/-- **The files of a directory**, in some order. -/
theorem findFiles_exactly {files : List File} {names : List (List UInt8)} {s : Search}
    (hperm : (files.map File.name).Perm names) (hnames : ∀ name ∈ names, 0 ∉ name ∧ name.length ≤ 255)
    (hsmall : path.length < 2 ^ 29) (h : Searching size blocks (path ++ [SLASH]) texts s) :
    Exactly (FilesFit isMatch size blocks path texts names)
      (Searching size blocks (path ++ [SLASH]) (texts ++ (names.filter isMatch).map (child path)))
      (files.foldlM (findFile isMatch) s) := by
  have hstart : SearchedFiles isMatch size blocks path texts ([].map File.name) s := by
    refine ⟨⟨List.forall_mem_nil _, h.count_le⟩, ?_⟩
    rw [List.map_nil, List.filter_nil, List.map_nil, List.append_nil]
    exact h
  have hloop := Exactly.foldlM (f := findFile isMatch)
    (P := fun before => FilesFit isMatch size blocks path texts (before.map File.name))
    (I := fun before => SearchedFiles isMatch size blocks path texts (before.map File.name))
    (fun before after hp => by rw [List.map_append] at hp; exact hp.before) (fun h => h.fit) files
    (fun before file hfile s hs => by
      obtain ⟨hnul, hle⟩ := hnames file.name (hperm.mem_iff.mp (List.mem_map_of_mem hfile))
      rw [List.map_append]
      exact findFile_exactly hs hnul (by rw [length_child]; omega)) hstart
  rw [List.nil_append] at hloop
  refine hloop.imp (FilesFit.perm hperm) fun s' hs' => hs'.searching.perm ?_
  exact ((hperm.filter isMatch).map (child path)).append_left texts

/-! ## The tree below it -/

/-- A tree that `find` does not stumble over, with room for its files. -/
def TreeFits (fs : FileSystem) (isMatch : List UInt8 → Bool) (size : Nat) (blocks : List Block)
    (depth : Nat) (path : List UInt8) (texts : List (List UInt8)) : Prop :=
  (∀ dir ∈ directories fs depth path, Sound fs isMatch size dir) ∧
    blocks.length + texts.length + (matching fs isMatch depth path).length ≤ 2 ^ 31

/-- `find` searches every tree of some depth. -/
def Finds (fs : FileSystem) (isMatch : List UInt8 → Bool) (size : Nat) (blocks : List Block)
    (depth : Nat) : Prop :=
  ∀ path texts s, Readable fs depth path → 0 ∉ path → Searching size blocks path texts s →
    Exactly (TreeFits fs isMatch size blocks depth path texts)
      (Searching size blocks path (texts ++ matching fs isMatch depth path)) (find fs isMatch depth s)

/-- The trees of some subdirectories. -/
def TreesFit (fs : FileSystem) (isMatch : List UInt8 → Bool) (size : Nat) (blocks : List Block)
    (depth : Nat) (path : List UInt8) (texts names : List (List UInt8)) : Prop :=
  (∀ name ∈ names, ∀ dir ∈ directories fs depth (child path name), Sound fs isMatch size dir) ∧
    blocks.length + texts.length +
      (names.flatMap fun name => matching fs isMatch depth (child path name)).length ≤ 2 ^ 31

theorem TreesFit.perm {depth : Nat} {names names' : List (List UInt8)} (h : names.Perm names') :
    TreesFit fs isMatch size blocks depth path texts names ↔
      TreesFit fs isMatch size blocks depth path texts names' := by
  unfold TreesFit
  rw [(h.flatMap_right fun name => matching fs isMatch depth (child path name)).length_eq]
  exact and_congr_left' ⟨fun hp name hname => hp name (h.mem_iff.mpr hname),
    fun hp name hname => hp name (h.mem_iff.mp hname)⟩

/-- A search in a directory, after some of its subdirectories. -/
structure SearchedTrees (fs : FileSystem) (isMatch : List UInt8 → Bool) (size : Nat)
    (blocks : List Block) (depth : Nat) (path : List UInt8) (texts names : List (List UInt8))
    (s : Search) : Prop where
  fit : TreesFit fs isMatch size blocks depth path texts names
  searching : Searching size blocks (path ++ [SLASH])
    (texts ++ names.flatMap fun name => matching fs isMatch depth (child path name)) s

theorem mem_directories {depth : Nat} (h : Readable fs depth path) : path ∈ directories fs depth path := by
  cases depth with
  | zero => exact absurd h id
  | succ depth => exact List.mem_cons_self

/-- One subdirectory. -/
theorem findSubdir_exactly {depth : Nat} {names : List (List UInt8)} {subdir : Directory} {s : Search}
    (hfind : Finds fs isMatch size blocks depth)
    (h : SearchedTrees fs isMatch size blocks depth path texts names s)
    (hread : Readable fs depth (child path subdir.name)) (hpath : 0 ∉ path) (hnul : 0 ∉ subdir.name)
    (hsmall : (child path subdir.name).length < 2 ^ 30) :
    Exactly (TreesFit fs isMatch size blocks depth path texts (names ++ [subdir.name]))
      (SearchedTrees fs isMatch size blocks depth path texts (names ++ [subdir.name]))
      (findSubdir (find fs isMatch depth) (path ++ [SLASH]).length s subdir) := by
  have hchild : 0 ∉ child path subdir.name := by
    intro hmem
    rcases List.mem_append.mp hmem with hmem | hmem
    · exact hpath hmem
    · rcases List.mem_cons.mp hmem with heq | hmem
      · exact absurd heq (by decide)
      · exact hnul hmem
  -- what the subdirectory adds
  have hadded : (names ++ [subdir.name]).flatMap (fun name => matching fs isMatch depth (child path name)) =
      (names.flatMap fun name => matching fs isMatch depth (child path name)) ++
        matching fs isMatch depth (child path subdir.name) := by
    rw [List.flatMap_append, List.flatMap_singleton]
  have happend := appendString_searching h.searching hnul (by rw [append_child]; exact hsmall)
  rw [append_child] at happend
  have hback : ∀ texts' s', Searching size blocks (child path subdir.name) texts' s' →
      Exactly True (Searching size blocks (path ++ [SLASH]) texts')
        (s'.reduceLength (path ++ [SLASH]).length) := by
    intro texts' s' hs'
    rw [← append_child] at hs'
    obtain ⟨s₃, hcut, hs₃⟩ := reduceLength_searching hs'
    rw [hcut]
    exact Exactly.some hs₃
  have hsearch := happend.bind fun s' hs' =>
    (hfind _ _ s' hread hchild hs').bind fun s'' hs'' => hback _ s'' hs''
  have hfit : TreesFit fs isMatch size blocks depth path texts (names ++ [subdir.name]) ↔
      (child path subdir.name).length < room size ∧
        TreeFits fs isMatch size blocks depth (child path subdir.name)
          (texts ++ names.flatMap fun name => matching fs isMatch depth (child path name)) ∧ True := by
    have hbefore := h.fit.1
    unfold TreesFit TreeFits
    rw [hadded, List.forall_mem_append, List.forall_mem_singleton, List.length_append, List.length_append]
    refine ⟨fun hp => ⟨?_, ⟨hp.1.2, by omega⟩, trivial⟩, fun hp => ⟨⟨hbefore, hp.2.1.1⟩, by omega⟩⟩
    have hsound := hp.1.2 _ (mem_directories hread)
    exact Nat.lt_of_succ_lt hsound.slash_room
  refine ⟨fun hp => ?_, fun hno => hsearch.fails fun hp => hno (hfit.mpr hp)⟩
  obtain ⟨s', hrun, hs'⟩ := hsearch.comes (hfit.mp hp)
  refine ⟨s', hrun, hp, ?_⟩
  rw [hadded, ← List.append_assoc]
  exact hs'

/-- **The subdirectories of a directory**, in some order. -/
theorem findSubdirs_exactly {depth : Nat} {subdirs : List Directory} {names : List (List UInt8)}
    {s : Search} (hfind : Finds fs isMatch size blocks depth)
    (hperm : (subdirs.map Directory.name).Perm names)
    (hread : ∀ name ∈ names, Readable fs depth (child path name))
    (hnames : ∀ name ∈ names, 0 ∉ name ∧ name.length ≤ 255) (hpath : 0 ∉ path)
    (hsmall : path.length < 2 ^ 29) (h : Searching size blocks (path ++ [SLASH]) texts s) :
    Exactly (TreesFit fs isMatch size blocks depth path texts names)
      (Searching size blocks (path ++ [SLASH])
        (texts ++ names.flatMap fun name => matching fs isMatch depth (child path name)))
      (subdirs.foldlM (findSubdir (find fs isMatch depth) (path ++ [SLASH]).length) s) := by
  have hstart : SearchedTrees fs isMatch size blocks depth path texts ([].map Directory.name) s := by
    refine ⟨⟨List.forall_mem_nil _, h.count_le⟩, ?_⟩
    rw [List.map_nil, List.flatMap_nil, List.append_nil]
    exact h
  have hmono : ∀ before after : List Directory,
      TreesFit fs isMatch size blocks depth path texts ((before ++ after).map Directory.name) →
        TreesFit fs isMatch size blocks depth path texts (before.map Directory.name) := by
    intro before after hp
    unfold TreesFit at hp ⊢
    rw [List.map_append, List.flatMap_append, List.length_append, List.forall_mem_append] at hp
    exact ⟨hp.1.1, by omega⟩
  have hloop := Exactly.foldlM (f := findSubdir (find fs isMatch depth) (path ++ [SLASH]).length)
    (P := fun before => TreesFit fs isMatch size blocks depth path texts (before.map Directory.name))
    (I := fun before =>
      SearchedTrees fs isMatch size blocks depth path texts (before.map Directory.name))
    hmono (fun h => h.fit) subdirs
    (fun before subdir hmem s hs => by
      have hname := hperm.mem_iff.mp (List.mem_map_of_mem hmem)
      obtain ⟨hnul, hle⟩ := hnames subdir.name hname
      rw [List.map_append]
      exact findSubdir_exactly hfind hs (hread subdir.name hname) hpath hnul (by rw [length_child]; omega))
    hstart
  rw [List.nil_append] at hloop
  refine hloop.imp (TreesFit.perm hperm) fun s' hs' => hs'.searching.perm ?_
  exact (hperm.flatMap_right _).append_left texts

/-! ## All of it -/

theorem initDirectory_exactly (path : List UInt8) :
    Exactly (path.length < SIZEOF_DIRECTORY)
      (fun directory => path.length < SIZEOF_DIRECTORY ∧
        directory = ⟨path.take SIZEOF_NAME, none, none⟩) (initDirectory path) := by
  unfold initDirectory copyInto
  have hguard : Exactly (path.length < SIZEOF_DIRECTORY)
      (fun name => path.length < SIZEOF_DIRECTORY ∧ name = path)
      (if path.length < SIZEOF_DIRECTORY then some path else none) :=
    Exactly.guard fun hlt => ⟨hlt, rfl⟩
  refine hguard.bind_pure fun name hname => ⟨hname.1, ?_⟩
  rw [hname.2]

/-- A tree by the directory at its top. -/
theorem treeFits_succ {depth : Nat} {entries : List Dirent} (hget : (opendir fs path).getD [] = entries) :
    TreeFits fs isMatch size blocks (depth + 1) path texts ↔
      path.length < SIZEOF_DIRECTORY ∧
        (Sortable (subdirNames entries).length ∧ Sortable (fileNames entries).length) ∧
          path.length + 1 < room size ∧
            TreesFit fs isMatch size blocks depth path texts (subdirNames entries) ∧
              FilesFit isMatch size blocks path (texts ++ (subdirNames entries).flatMap fun name =>
                matching fs isMatch depth (child path name)) (fileNames entries) := by
  unfold TreeFits TreesFit FilesFit
  rw [directories, matching, hget, List.forall_mem_cons, List.length_append, List.length_map,
    List.length_append]
  constructor
  · intro ⟨⟨hsound, hbelow⟩, hroom⟩
    have hsubdirs := hsound.subdirs
    have hfiles := hsound.files
    have hfileRoom := hsound.file_room
    rw [hget] at hsubdirs hfiles hfileRoom
    refine ⟨hsound.length_lt, ⟨hsubdirs, hfiles⟩, hsound.slash_room, ⟨?_, by omega⟩, hfileRoom, by omega⟩
    intro name hname dir hdir
    exact hbelow dir (List.mem_flatMap.mpr ⟨name, hname, hdir⟩)
  · intro ⟨hlength, ⟨hsubdirs, hfiles⟩, hslash, ⟨hbelow, _⟩, hfileRoom, hroom⟩
    rw [← hget] at hsubdirs hfiles hfileRoom
    refine ⟨⟨⟨hsubdirs, hfiles, hlength, hslash, hfileRoom⟩, ?_⟩, by omega⟩
    intro dir hdir
    obtain ⟨name, hname, hdir⟩ := List.mem_flatMap.mp hdir
    exact hbelow name hname dir hdir

/-- **`find` on a tree**, by its depth. -/
theorem find_exactly (fs : FileSystem) (isMatch : List UInt8 → Bool) (size : Nat) (blocks : List Block)
    (depth : Nat) : Finds fs isMatch size blocks depth := by
  induction depth with
  | zero => exact fun _ _ _ hread => absurd hread id
  | succ depth ih =>
    intro path texts s hread hpath h
    obtain ⟨entries, hopen, hbelow⟩ := hread
    have hget : (opendir fs path).getD [] = entries := by
      rw [hopen]
      rfl
    have hne := opendir_ne hopen
    unfold find
    refine Exactly.bind_some (h.within.text hpath) (((initDirectory_exactly path).bind fun directory hdirectory =>
      ?_).cond (treeFits_succ hget).symm)
    obtain ⟨hlength, rfl⟩ := hdirectory
    have hsmall : path.length < 2 ^ 29 := Nat.lt_trans hlength (by decide)
    refine (readDirectory_exactly hopen).bind fun directory hlisted => ?_
    refine (appendChar_searching h SLASH hne (by omega)).bind fun s₁ hs₁ => ?_
    rw [hs₁.within.length]
    refine (findSubdirs_exactly ih hlisted.subdirs hbelow (fun _ => of_mem_subdirNames) hpath hsmall
      hs₁).bind fun s₂ hs₂ => ?_
    refine (((findFiles_exactly hlisted.files (fun _ => of_mem_fileNames) hsmall hs₂).bind fun s₃ hs₃ =>
      ?_).cond (iff_of_eq (and_true _)))
    obtain ⟨s₄, hcut, hs₄⟩ := reduceLength_searching hs₃
    rw [List.length_append, List.length_singleton, Nat.add_sub_cancel, hcut]
    refine Exactly.some ?_
    rw [matching, hget, ← List.append_assoc]
    exact hs₄

end

/-- `find` comes back, its list has the files that match, each of them once and nothing else, and
the `DirPath` has the path that it had. -/
def FindsAll (fs : FileSystem) (isMatch : List UInt8 → Bool) (depth : Nat) (start : List UInt8)
    (dirPath : DirPath) (garbage : Nat → Mem) : Prop :=
  ∃ s, find fs isMatch depth ⟨initFilePathList, dirPath, garbage⟩ = some s ∧
    Holding s.filePathList.values (matching fs isMatch depth start) ∧ s.dirPath.Holds start

/-- From an empty list, and a `DirPath` with the path. -/
theorem findsAll_iff (fs : FileSystem) (isMatch : List UInt8 → Bool) {start : List UInt8}
    (hnul : 0 ∉ start) {depth : Nat} (hread : Readable fs depth start) {dirPath : DirPath}
    (hholds : dirPath.Holds start) (garbage : Nat → Mem) :
    FindsAll fs isMatch depth start dirPath garbage ↔
      TreeFits fs isMatch dirPath.size [] depth start [] := by
  have hstart : Searching dirPath.size [] start [] ⟨initFilePathList, dirPath, garbage⟩ :=
    ⟨hholds.within, rfl, ⟨Nat.zero_le _, 6, by decide, rfl⟩, [], rfl, Holding.nil⟩
  refine ((find_exactly fs isMatch dirPath.size [] depth start [] _ hread hnul hstart).imp Iff.rfl
    fun s hs => ?_).iff
  obtain ⟨more, hvalues, hmore⟩ := hs.added
  rw [List.nil_append] at hvalues hmore
  rw [hvalues]
  refine ⟨hmore, hs.within.holds ?_⟩
  rw [hs.size, hs.within.length, ← hholds.length]
  exact hholds.length_lt

/-- **When `find` finds all files.** -/
theorem find_iff (fs : FileSystem) (isMatch : List UInt8 → Bool) {start : List UInt8}
    (hnul : 0 ∉ start) {depth : Nat} (hread : Readable fs depth start) {dirPath : DirPath}
    (hholds : dirPath.Holds start) (garbage : Nat → Mem) :
    FindsAll fs isMatch depth start dirPath garbage ↔
      (∀ dir ∈ directories fs depth start, Sound fs isMatch dirPath.size dir) ∧
        (matching fs isMatch depth start).length ≤ 2 ^ 31 := by
  rw [findsAll_iff fs isMatch hnul hread hholds garbage, TreeFits, List.length_nil, List.length_nil,
    Nat.zero_add]

/-- A file with a short name. -/
def shortFile (c : UInt8) (h : c ≠ 0) : Dirent :=
  ⟨DT_REG, [c], fun hmem => h (List.mem_singleton.mp hmem).symm, Nat.one_pos, Nat.le_add_left 1 254⟩

/-- The directory `d`, and nothing else. -/
def oneDirectory (entries : List Dirent) : FileSystem := fun path =>
  if path = [0x64] then some entries else none

/-- A `DirPath` for it. -/
def shortPath : DirPath := ⟨⟨80, textMem [0x64]⟩, 1, 65⟩

theorem shortPath_holds : shortPath.Holds [0x64] :=
  ⟨⟨rfl, by decide, by decide, by decide, by decide⟩, by decide, by decide⟩

def twoFiles : List Dirent := [shortFile 0x61 (by decide), shortFile 0x62 (by decide)]

theorem oneDirectory_readable {entries : List Dirent} (h : subdirNames entries = []) :
    Readable (oneDirectory entries) 1 [0x64] :=
  ⟨entries, rfl, by rw [h]; exact List.forall_mem_nil _⟩

theorem find_iff_twoFiles :
    FindsAll (oneDirectory twoFiles) (fun _ => true) 1 [0x64] shortPath (fun _ _ => 0) ↔
      (∀ dir ∈ directories (oneDirectory twoFiles) 1 [0x64],
        Sound (oneDirectory twoFiles) (fun _ => true) shortPath.size dir) ∧
        (matching (oneDirectory twoFiles) (fun _ => true) 1 [0x64]).length ≤ 2 ^ 31 :=
  find_iff _ _ (by decide) (oneDirectory_readable rfl) shortPath_holds _

/-- **One file**: it is not found. -/
theorem find_oneFile :
    ¬ ∀ (fs : FileSystem) (isMatch : List UInt8 → Bool) (start : List UInt8) (depth : Nat)
        (dirPath : DirPath) (garbage : Nat → Mem), 0 ∉ start → Readable fs depth start →
      dirPath.Holds start → FindsAll fs isMatch depth start dirPath garbage := by
  intro h
  have hread : Readable (oneDirectory [shortFile 0x61 (by decide)]) 1 [0x64] :=
    oneDirectory_readable rfl
  have hfits := (findsAll_iff _ (fun _ => true) (by decide) hread shortPath_holds (fun _ _ => 0)).mp
    (h _ _ _ _ _ _ (by decide) hread shortPath_holds)
  exact (hfits.1 [0x64] List.mem_cons_self).files.1 rfl

end DevopsBroker.Fs
