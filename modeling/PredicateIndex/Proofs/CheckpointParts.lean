import PredicateIndex.Proofs.CheckpointFiles
import PredicateIndex.Proofs.TokenNames

/-!
# The parts in a checkpoint directory

The checkpoint directory of a store holds the parts that were written and
nothing else that counts: writing one adds it or takes the place of the one
with the same token and name, and listing the directory finds them all.
-/

set_option autoImplicit false

namespace PredicateIndex

namespace Disk

theorem childName?_eq_some {dir p : Path} {name : String} :
    childName? dir p = some name ↔ p = dir ++ [name] := by
  induction dir generalizing p with
  | nil =>
    cases p with
    | nil => simp [childName?]
    | cons first rest => cases rest <;> simp [childName?]
  | cons component dir ih =>
    cases p with
    | nil => simp [childName?]
    | cons first rest =>
      by_cases h : component = first
      · simp [childName?, h, ih]
      · simp [childName?, h, Ne.symm h]

theorem mem_children {disk : Disk} {place : Path} {name : String} :
    (∃ entry, (name, entry) ∈ disk.children place) ↔ (disk.entry? (place ++ [name])).isSome := by
  have he : disk.entry? (place ++ [name]) = disk.entries.lookup (place ++ [name]) := by
    rw [ entry?, if_neg (by simp)]
  constructor
  · rintro ⟨entry, h⟩
    obtain ⟨⟨p, found⟩, hm, hc⟩ := List.mem_filterMap.mp h
    obtain ⟨child, hchild, hpair⟩ := Option.map_eq_some_iff.mp hc
    obtain rfl : child = name := congrArg Prod.fst hpair
    rw [childName?_eq_some] at hchild
    rw [he, ← hchild]
    exact Lookup.isSome_of_mem hm
  · intro h
    rw [he] at h
    obtain ⟨entry, hl⟩ := Option.isSome_iff_exists.mp h
    refine ⟨entry, List.mem_filterMap.mpr ⟨_, Lookup.mem_of_eq_some hl, ?_⟩⟩
    rw [childName?_eq_some.mpr rfl]
    rfl

end Disk

namespace CheckpointDir

theorem homed_of_exists_part {dir : Path} {name child : String} {disk : Disk}
    (hn : Path.Plain name) (hc : Path.Plain child)
    (he : disk.exists? (((root dir).child child).child name) = true) :
    ∃ place, Disk.Homed disk (root dir) place ∧
      disk.entry? (place ++ [child]) = some .directory := by
  obtain ⟨inner, hinner⟩ := Disk.homed_of_exists_child hn he
  have hresolve := hinner.resolve
  rw [Path.stem_child _ hc.1] at hresolve
  obtain ⟨place, hplace, rfl⟩ := Disk.homed_of_resolve_child hc hresolve
  exact ⟨place, hplace, hinner.directory⟩

def Named (dir : Path) (name : String) (disk : Disk) (token : Token) : Prop :=
  ∃ child, Token.ofDirName? child = some token ∧
    disk.exists? (((root dir).child child).child name) = true

/-- The tokens that are listed for a name are those that directories with such a file are read as,
whatever is in the checkpoint directory. -/
theorem mem_tokensWith {dir : Path} {name : String} {disk : Disk} (hn : Path.Plain name)
    (hr : ∀ place id, disk.locate (root dir) ≠ .ok (place, .file id)) :
    ∃ tokens, tokensWith dir name disk = .ok tokens ∧
      ∀ token, token ∈ tokens ↔ Named dir name disk token := by
  rw [tokensWith]
  cases hl : disk.locate (root dir) with
  | error cause =>
    refine ⟨[], rfl, fun token => ⟨fun hm => (by cases hm), ?_⟩⟩
    rintro ⟨child, hc, he⟩
    obtain ⟨place, hplace, -⟩ := homed_of_exists_part hn (Token.plain_of_ofDirName? hc) he
    rw [hplace.locate_self] at hl
    cases hl
  | ok found =>
    obtain ⟨place, entry⟩ := found
    cases entry with
    | file id => exact (hr place id hl).elim
    | directory =>
      refine ⟨_, rfl, fun token => ?_⟩
      rw [List.mem_filterMap]
      constructor
      · rintro ⟨⟨child, entry⟩, -, hc⟩
        dsimp only at hc
        split at hc
        · exact ⟨child, hc, ‹_›⟩
        · cases hc
      · rintro ⟨child, hc, he⟩
        obtain ⟨home, hhome, hdir⟩ :=
          homed_of_exists_part hn (Token.plain_of_ofDirName? hc) he
        obtain rfl := hhome.unique (Disk.homed_of_locate hl)
        obtain ⟨entry, hm⟩ := Disk.mem_children.mpr (Option.isSome_of_eq_some hdir)
        exact ⟨(child, entry), hm, (if_pos he).trans hc⟩

def rootPlace (place : Path) : Path := place ++ ["checkpoints"]

def tokenPlace (place : Path) (token : Token) : Path := rootPlace place ++ [token.text]

def partPlace (place : Path) (token : Token) (name : String) : Path :=
  tokenPlace place token ++ [name]

structure Tidy (disk : Disk) (place : Path) : Prop where
  root : ∀ id, disk.entry? (rootPlace place) ≠ some (.file id)
  child : ∀ name entry, disk.entry? (rootPlace place ++ [name]) = some entry →
    entry = .directory ∧ (∃ token : Token, name = token.text) ∧
      disk.entry? (rootPlace place) = some .directory
  leaf : ∀ token name entry, disk.entry? (partPlace place token name) = some entry →
    (∃ id, entry = .file id) ∧ disk.entry? (tokenPlace place token) = some .directory

def part? (disk : Disk) (place : Path) (token : Token) (name : String) : Option Bytes :=
  match disk.entry? (partPlace place token name) with
  | some (.file id) => some (disk.content id)
  | _ => none

variable {disk other : Disk} {dir place : Path} {token : Token} {name : String}

theorem part?_congr
    (he : other.entry? (partPlace place token name) = disk.entry? (partPlace place token name))
    (hc : ∀ id, disk.entry? (partPlace place token name) = some (.file id) →
      other.content id = disk.content id) :
    part? other place token name = part? disk place token name := by
  rw [part?, part?, he]
  split
  · rename_i id hid
    rw [hc id hid]
  · rfl

theorem part?_frame {p : Path} (hc : Disk.ChangesOnly p disk other)
    (hp : ∀ rest, rootPlace place ++ rest ≠ p) (token : Token) (name : String) :
    part? other place token name = part? disk place token name := by
  have hne : partPlace place token name ≠ p := by
    rw [partPlace, tokenPlace, List.append_assoc]
    exact hp _
  exact part?_congr (hc.entry _ hne) fun id he => hc.content _ id hne he

theorem partPlace_inj {token other : Token} {name last : String} :
    partPlace place token name = partPlace place other last ↔ token = other ∧ name = last := by
  constructor
  · intro h
    simp only [partPlace, tokenPlace, List.append_assoc, List.append_cancel_left_eq,
      List.cons_append, List.nil_append, List.cons.injEq, and_true] at h
    exact ⟨Token.text_injective h.1, h.2⟩
  · rintro ⟨rfl, rfl⟩
    rfl

namespace Tidy

theorem ofEmpty (h : ∀ rest, rest ≠ [] → disk.entry? (place ++ rest) = none) :
    Tidy disk place where
  root id := by simp [rootPlace, h]
  child name entry he := by
    rw [rootPlace, List.append_assoc, h _ (by simp)] at he
    cases he
  leaf token name entry he := by
    rw [partPlace, tokenPlace, rootPlace, List.append_assoc, List.append_assoc,
      h _ (by simp)] at he
    cases he

theorem congr (h : Tidy disk place) (he : ∀ rest, other.entry? (rootPlace place ++ rest) =
    disk.entry? (rootPlace place ++ rest)) : Tidy other place := by
  have hroot := he []
  rw [List.append_nil] at hroot
  refine ⟨fun id => hroot ▸ h.root id, fun name entry hc => ?_, fun token name entry hl => ?_⟩
  · rw [hroot]
    exact h.child name entry (he [name] ▸ hc)
  · have hleaf := he [token.text, name]
    rw [← List.singleton_append, ← List.append_assoc] at hleaf
    rw [tokenPlace, he [token.text]]
    exact h.leaf token name entry (hleaf ▸ hl)

theorem frame (h : Tidy disk place) {p : Path} (hc : Disk.ChangesOnly p disk other)
    (hp : ∀ rest, rootPlace place ++ rest ≠ p) : Tidy other place :=
  h.congr fun rest => hc.entry _ (hp rest)

theorem homed_root (h : Tidy disk place) (hd : Disk.Homed disk dir place)
    {entry : Entry} (he : disk.entry? (rootPlace place) = some entry) :
    Disk.Homed disk (CheckpointDir.root dir) (rootPlace place) := by
  cases entry with
  | file id => exact (h.root id he).elim
  | directory => exact hd.child (by decide) he

theorem homed_token (h : Tidy disk place) (hd : Disk.Homed disk dir place)
    (he : disk.entry? (tokenPlace place token) = some .directory) :
    Disk.Homed disk (tokenDir dir token) (tokenPlace place token) := by
  obtain ⟨-, -, hroot⟩ := h.child token.text .directory he
  exact (h.homed_root hd hroot).child token.plain_text he

theorem locate_part (h : Tidy disk place) (hd : Disk.Homed disk dir place) (token : Token)
    (hn : Path.Plain name) :
    disk.locate ((tokenDir dir token).child name) =
      match disk.entry? (partPlace place token name) with
      | some entry => .ok (partPlace place token name, entry)
      | none => .error .notFound := by
  cases he : disk.entry? (partPlace place token name) with
  | some entry => exact (h.homed_token hd (h.leaf token name entry he).2).locate_child hn he
  | none =>
    cases ht : disk.entry? (tokenPlace place token) with
    | some entry =>
      obtain ⟨rfl, -⟩ := h.child token.text entry ht
      exact (h.homed_token hd ht).locate_none hn he
    | none =>
      have hmissing : disk.resolve ((tokenDir dir token).child name) = .error .notFound := by
        rw [tokenDir, Path.child_eq (Path.child _ _), Path.stem_child _ token.plain_text.1,
          Disk.resolve_snoc]
        cases hr : disk.entry? (rootPlace place) with
        | some entry =>
          rw [(h.homed_root hd hr).resolve_child token.plain_text]
          show disk.step (tokenPlace place token) name = _
          rw [Disk.step, ht]
        | none =>
          rw [Path.child_eq (CheckpointDir.root dir), CheckpointDir.root,
            Path.stem_child _ (by decide), Disk.resolve_snoc, hd.resolve_child (by decide)]
          show (disk.step (rootPlace place) token.text >>= fun place => disk.step place name) = _
          rw [Disk.step, hr]
          rfl
      simp only [Disk.locate, hmissing, bind, Except.bind]

theorem read_eq {α : Type} (h : Tidy disk place) (hd : Disk.Homed disk dir place) (token : Token)
    (hn : Path.Plain name) (value : Reader α) :
    read dir token name value disk =
      match part? disk place token name with
      | some bytes => Frame.decode value bytes
      | none => .error (.noCheckpointFile name token) := by
  have hl := h.locate_part hd token hn
  rw [read, part?, Disk.read, Disk.find, hl]
  cases he : disk.entry? (partPlace place token name) with
  | none => rfl
  | some entry =>
    obtain ⟨⟨id, rfl⟩, -⟩ := h.leaf token name entry he
    rfl

theorem exists_part (h : Tidy disk place) (hd : Disk.Homed disk dir place) (token : Token)
    (hn : Path.Plain name) :
    disk.exists? ((tokenDir dir token).child name) = (part? disk place token name).isSome := by
  rw [Disk.exists?, h.locate_part hd token hn, part?]
  cases he : disk.entry? (partPlace place token name) with
  | none => rfl
  | some entry =>
    obtain ⟨⟨id, rfl⟩, -⟩ := h.leaf token name entry he
    rfl

/-- The tokens that are listed for a name are those with such a part. -/
theorem tokensWith_ok (h : Tidy disk place) (hd : Disk.Homed disk dir place)
    (hn : Path.Plain name) :
    ∃ tokens, tokensWith dir name disk = .ok tokens ∧
      ∀ token, token ∈ tokens ↔ (part? disk place token name).isSome := by
  have hfree : ∀ home id, disk.locate (CheckpointDir.root dir) ≠ .ok (home, .file id) := by
    intro home id hl
    cases hr : disk.entry? (rootPlace place) with
    | none =>
      have hnone : disk.locate (CheckpointDir.root dir) = .error .notFound :=
        hd.locate_none (by decide) hr
      rw [hnone] at hl
      cases hl
    | some entry =>
      rw [(h.homed_root hd hr).locate_self] at hl
      cases hl
  obtain ⟨tokens, hok, hmem⟩ := mem_tokensWith hn hfree
  refine ⟨tokens, hok, fun token => (hmem token).trans ?_⟩
  rw [← h.exists_part hd token hn]
  constructor
  · rintro ⟨child, hc, he⟩
    obtain ⟨home, hhome, hdir⟩ := homed_of_exists_part hn (Token.plain_of_ofDirName? hc) he
    have hroot : disk.resolve (CheckpointDir.root dir) = .ok (rootPlace place) :=
      hd.resolve_child (by decide)
    have hplace := hhome.resolve
    rw [CheckpointDir.root, Path.stem_child _ (by decide), ← CheckpointDir.root, hroot] at hplace
    obtain rfl := Except.ok.inj hplace
    obtain ⟨-, ⟨owner, rfl⟩, -⟩ := h.child child .directory hdir
    rw [Token.ofDirName?_text] at hc
    obtain rfl := Option.some.inj hc
    exact he
  · exact fun he => ⟨token.text, Token.ofDirName?_text token, he⟩

theorem makesDir (h : Tidy disk place) {p : Path} (hm : Disk.MakesDirs [p] disk other)
    (hp : p = rootPlace place ∨ ∃ token, p = tokenPlace place token)
    (hroot : other.entry? (rootPlace place) = some .directory) : Tidy other place := by
  refine ⟨fun id hf => ?_, fun name entry he => ?_, fun token name entry he => ?_⟩
  · rw [hroot] at hf
    cases hf
  · rw [hm.entry] at he
    split at he
    · rename_i hmem
      obtain rfl := Option.some.inj he
      refine ⟨rfl, ?_, hroot⟩
      rcases hp with rfl | ⟨owner, rfl⟩
      · simp at hmem
      · exact ⟨owner, by simpa [tokenPlace] using hmem⟩
    · obtain ⟨hdir, hname, -⟩ := h.child name entry he
      exact ⟨hdir, hname, hroot⟩
  · have hne : partPlace place token name ∉ [p] := by
      rcases hp with rfl | ⟨owner, rfl⟩ <;> simp [partPlace, tokenPlace, rootPlace]
    rw [hm.entry, if_neg hne] at he
    obtain ⟨hfile, hdir⟩ := h.leaf token name entry he
    refine ⟨hfile, ?_⟩
    rw [hm.entry, hdir]
    split <;> rfl

theorem changesFiles (h : Tidy disk place)
    (ht : disk.entry? (tokenPlace place token) = some .directory)
    (he : ∀ p, (∀ name, p ≠ partPlace place token name) → other.entry? p = disk.entry? p)
    (hf : ∀ name, other.entry? (partPlace place token name) ≠ some .directory) :
    Tidy other place := by
  have hroot : other.entry? (rootPlace place) = disk.entry? (rootPlace place) :=
    he _ fun name => by simp [partPlace, tokenPlace, rootPlace]
  have hchild : ∀ name, other.entry? (rootPlace place ++ [name]) =
      disk.entry? (rootPlace place ++ [name]) := fun name =>
    he _ fun last => by simp [partPlace, tokenPlace, rootPlace]
  refine ⟨fun id => hroot ▸ h.root id, fun name entry hc => ?_, fun owner last entry hl => ?_⟩
  · rw [hroot]
    exact h.child name entry (hchild name ▸ hc)
  · rw [tokenPlace, hchild]
    by_cases ho : owner = token
    · subst ho
      refine ⟨?_, ht⟩
      cases entry with
      | file id => exact ⟨id, rfl⟩
      | directory => exact (hf last hl).elim
    · rw [he _ fun name hp => ho (partPlace_inj.mp hp).1] at hl
      exact h.leaf owner last entry hl

theorem part_ne_directory (h : Tidy disk place) (token : Token) (name : String) :
    disk.entry? (partPlace place token name) ≠ some .directory := by
  intro he
  obtain ⟨⟨id, hf⟩, -⟩ := h.leaf token name _ he
  cases hf

end Tidy

/-- On the other disk there may be more directories in the checkpoint directory, and the draft of
a part; all else that was there is as it was. -/
structure Drafts (name : String) (place : Path) (disk other : Disk) : Prop where
  spares : Disk.Spares (Apart name) disk other
  tidy : Tidy other place
  parts : ∀ token last, last ≠ draftFile name →
    part? other place token last = part? disk place token last

theorem Drafts.trans {last : Disk} (h : Drafts name place disk other)
    (ho : Drafts name place other last) : Drafts name place disk last :=
  ⟨h.spares.trans ho.spares, ho.tidy, fun token file hn =>
    (ho.parts token file hn).trans (h.parts token file hn)⟩

namespace Tidy

theorem ensureDir_ok (h : Tidy disk place) (hw : disk.WellFormed) {parent home p : Path}
    {child : String} (hd : Disk.Homed disk parent home) (hc : Path.Plain child)
    (hp : p = home ++ [child]) (hplace : p = rootPlace place ∨ ∃ token, p = tokenPlace place token)
    (hroot : p ≠ rootPlace place → disk.entry? (rootPlace place) = some .directory)
    (name : String) :
    ∃ made, disk.ensureDir (parent.child child) = (.ok (), made) ∧ Drafts name place disk made ∧
      Disk.Homed made (parent.child child) p := by
  have hfree : ∀ id, disk.entry? (home ++ [child]) ≠ some (.file id) := by
    intro id he
    rw [← hp] at he
    rcases hplace with rfl | ⟨token, rfl⟩
    · exact h.root id he
    · obtain ⟨hdir, -⟩ := h.child token.text _ he
      cases hdir
  obtain ⟨made, hmade, hdirs⟩ := Disk.ensureDir_child hd hc hfree
  rw [← hp] at hdirs
  have hadds := Disk.addsDirs_ensureDir disk (parent.child child)
  rw [hmade] at hadds
  have hspares := hadds.spares hw
  have hat : made.entry? p = some .directory := by
    rw [hdirs.entry, if_pos (by simp)]
  have hmadeRoot : made.entry? (rootPlace place) = some .directory := by
    by_cases hr : p = rootPlace place
    · rw [← hr, hat]
    · exact hspares.directory _ (hroot hr)
  refine ⟨made, hmade, ⟨hspares.weaken fun p _ => trivial, h.makesDir hdirs hplace hmadeRoot,
    fun token last _ => part?_congr ?_ fun id _ => ?_⟩, ?_⟩
  · rw [hdirs.entry, if_neg]
    rcases hplace with rfl | ⟨owner, rfl⟩ <;> simp [partPlace, tokenPlace, rootPlace]
  · rw [Disk.content, Disk.content, hdirs.files]
  · rw [hp] at hat ⊢
    exact (hd.mono hspares.directory).child hc hat

theorem openDraft (h : Tidy disk place) (hw : disk.WellFormed)
    (hd : Disk.Homed disk (tokenDir dir token) (tokenPlace place token))
    (hn : Path.Plain (draftFile name)) :
    ∃ id opened, disk.openFile ((tokenDir dir token).child (draftFile name)) = .ok (id, opened) ∧
      Drafts name place disk opened ∧
      opened.entry? (partPlace place token (draftFile name)) = some (.file id) := by
  obtain ⟨id, opened, hopen, hentry, hcontent, -⟩ :=
    Disk.openFile_exact hd hn (h.part_ne_directory token (draftFile name))
  obtain ⟨-, -, -, hspares⟩ := Disk.openFile_ok hw hn hopen
  have hat : opened.entry? (partPlace place token (draftFile name)) = some (.file id) := by
    rw [hentry]
    exact if_pos rfl
  have hother : ∀ p, p ≠ partPlace place token (draftFile name) →
      opened.entry? p = disk.entry? p := fun p hp => (hentry p).trans (if_neg hp)
  refine ⟨id, opened, hopen, ⟨hspares.weaken fun p _ => trivial,
    h.changesFiles hd.directory (fun p hp => hother p (hp _)) fun last he => ?_,
    fun owner last hl => part?_congr (hother _ fun hp => hl (partPlace_inj.mp hp).2)
      fun i _ => hcontent i⟩, hat⟩
  by_cases hp : partPlace place token last = partPlace place token (draftFile name)
  · rw [hp, hat] at he
    cases he
  · rw [hother _ hp] at he
    exact h.part_ne_directory token last he

theorem fillDraft (h : Tidy disk place) (hw : disk.WellFormed) {id : FileId}
    (he : disk.entry? (partPlace place token (draftFile name)) = some (.file id)) (bytes : Bytes) :
    Drafts name place disk (disk.setContent id bytes) := by
  have hwrites := Disk.writesOnly_setContent disk id bytes
  refine ⟨(hwrites.spares hw he).weaken fun p hp => (hp.ne _).2, h.congr fun _ => rfl,
    fun owner last hl => part?_congr rfl fun i hi => hwrites.content i ?_⟩
  rintro rfl
  exact hl (partPlace_inj.mp (hw.separate _ _ i hi he)).2

theorem moveDraft (h : Tidy disk place)
    (hd : Disk.Homed disk (tokenDir dir token) (tokenPlace place token)) (hn : Path.Plain name)
    (hdraft : Path.Plain (draftFile name)) {id : FileId}
    (he : disk.entry? (partPlace place token (draftFile name)) = some (.file id)) :
    ∃ moved, disk.rename ((tokenDir dir token).child (draftFile name))
        ((tokenDir dir token).child name) = .ok moved ∧ Tidy moved place ∧
      ∀ owner last, last ≠ draftFile name → part? moved place owner last =
        if owner = token ∧ last = name then some (disk.content id)
        else part? disk place owner last := by
  have hnodir := h.part_ne_directory token
  obtain ⟨moved, hmove, hfiles, hmoved⟩ : ∃ moved,
      disk.rename ((tokenDir dir token).child (draftFile name))
        ((tokenDir dir token).child name) = .ok moved ∧ moved.files = disk.files ∧
      ∀ p, moved.entry? p = if p = partPlace place token name then some (.file id)
        else if p = partPlace place token (draftFile name) then none else disk.entry? p :=
    ⟨_, Disk.rename_eq (hd.locate_child hdraft he) (hd.resolve_child hn) (hnodir name), rfl,
      Disk.entry?_rename (by simp) (by simp)⟩
  have hcontents : ∀ i, moved.content i = disk.content i := fun i => by
    rw [Disk.content, Disk.content, hfiles]
  refine ⟨moved, hmove, h.changesFiles hd.directory (fun p hp => ?_) (fun last hc => ?_),
    fun owner last hl => ?_⟩
  · rw [hmoved, if_neg (hp _), if_neg (hp _)]
  · rw [hmoved] at hc
    split at hc
    · cases hc
    · split at hc
      · cases hc
      · exact hnodir last hc
  · by_cases hpart : partPlace place owner last = partPlace place token name
    · rw [part?, hmoved, if_pos hpart, if_pos (partPlace_inj.mp hpart)]
      simp only [hcontents]
    · rw [if_neg fun hc => hpart (partPlace_inj.mpr hc)]
      refine part?_congr ?_ fun i _ => hcontents i
      rw [hmoved, if_neg hpart, if_neg fun hc => hl (partPlace_inj.mp hc).2]

theorem draft_ok (h : Tidy disk place) (hw : disk.WellFormed) (hd : Disk.Homed disk dir place)
    (token : Token) (hdraft : Path.Plain (draftFile name)) :
    ∃ first made id opened, disk.ensureDir (CheckpointDir.root dir) = (.ok (), first) ∧
      first.ensureDir (tokenDir dir token) = (.ok (), made) ∧
      made.openFile ((tokenDir dir token).child (draftFile name)) = .ok (id, opened) ∧
      Drafts name place disk first ∧ Drafts name place disk made ∧
      Drafts name place disk opened ∧
      Disk.Homed opened (tokenDir dir token) (tokenPlace place token) ∧
      opened.entry? (partPlace place token (draftFile name)) = some (.file id) := by
  obtain ⟨first, hfirst, hf, hroot⟩ := h.ensureDir_ok hw hd (show Path.Plain "checkpoints" by decide)
    (show rootPlace place = _ from rfl) (Or.inl rfl) (fun hr => (hr rfl).elim) name
  obtain ⟨made, hmade, hm, htoken⟩ := hf.tidy.ensureDir_ok hf.spares.wellFormed hroot
    token.plain_text (show tokenPlace place token = _ from rfl) (Or.inr ⟨token, rfl⟩)
    (fun _ => hroot.directory) name
  obtain ⟨id, opened, hopen, ho, he⟩ := hm.tidy.openDraft hm.spares.wellFormed htoken hdraft
  exact ⟨first, made, id, opened, hfirst, hmade, hopen, hf, hf.trans hm, (hf.trans hm).trans ho,
    htoken.mono ho.spares.directory, he⟩

/-- Writing a part succeeds, and then the part is there beside those that were. -/
theorem write_ok (h : Tidy disk place) (hw : disk.WellFormed) (hd : Disk.Homed disk dir place)
    (token : Token) (hn : Path.Plain name) (hdraft : Path.Plain (draftFile name)) (payload : Bytes) :
    ∃ other, write dir token name payload disk = (.ok (), other) ∧ Tidy other place ∧
      ∀ t n, n ≠ draftFile name → part? other place t n =
        if t = token ∧ n = name then some (Frame.wrap payload) else part? disk place t n := by
  obtain ⟨first, made, id, opened, hfirst, hmade, hopen, -, -, ho, htoken, he⟩ :=
    h.draft_ok hw hd token hdraft
  have hf := ho.tidy.fillDraft ho.spares.wellFormed he (Frame.wrap payload)
  obtain ⟨moved, hmove, htidy, hparts⟩ :=
    hf.tidy.moveDraft (htoken.mono hf.spares.directory) hn hdraft he
  have hdirs := Disk.createDirs_of_ensureDir hd (by decide) token.plain_text hfirst hmade
  refine ⟨moved, ?_, htidy, fun t n hne => ?_⟩
  · rw [write_made (show disk.createDirs (tokenDir dir token) = (.ok (), made) from hdirs)]
    simp only [hopen, hmove]
  · rw [hparts t n hne, Disk.content_setContent (ho.spares.wellFormed.inRange _ _ he),
      (ho.trans hf).parts t n hne]

theorem latestLog_eq (h : Tidy disk place) (hd : Disk.Homed disk dir place)
    (hp : (part? disk place token logFile).isSome)
    (hle : ∀ other, (part? disk place other logFile).isSome → other.value ≤ token.value) :
    latestLog dir disk = .ok (some token) := by
  obtain ⟨tokens, ht, hm⟩ := h.tokensWith_ok hd (show Path.Plain logFile by decide)
  have hnewest := Token.newest?_eq ((hm token).mpr hp) fun other ho => hle other ((hm other).mp ho)
  simp only [latestLog, ht, bind, Except.bind, hnewest]
  rfl

theorem latestLog_ok (h : Tidy disk place) (hd : Disk.Homed disk dir place) :
    ∃ latest, latestLog dir disk = .ok latest ∧
      (latest = none → ∀ token, part? disk place token logFile = none) := by
  obtain ⟨tokens, ht, hm⟩ := h.tokensWith_ok hd (show Path.Plain logFile by decide)
  refine ⟨Token.newest? tokens, by simp only [latestLog, ht]; rfl, fun hn token => ?_⟩
  rw [Token.newest?_eq_none] at hn
  have hnot := not_congr (hm token)
  simpa [hn] using hnot

theorem latestLog_none (h : Tidy disk place) (hd : Disk.Homed disk dir place)
    (hp : ∀ token, part? disk place token logFile = none) : latestLog dir disk = .ok none := by
  obtain ⟨tokens, ht, hm⟩ := h.tokensWith_ok hd (show Path.Plain logFile by decide)
  have hnil : tokens = [] := by
    rw [List.eq_nil_iff_forall_not_mem]
    intro token ho
    simpa [hp] using (hm token).mp ho
  simp only [latestLog, ht, bind, Except.bind, hnil]
  rfl

theorem latestIndexBefore_eq (h : Tidy disk place) (hd : Disk.Homed disk dir place)
    {bound : Token} (hb : token.value ≤ bound.value) (hp : (part? disk place token indexFile).isSome)
    (hle : ∀ other : Token, other.value ≤ bound.value →
      (part? disk place other indexFile).isSome → other.value ≤ token.value) :
    latestIndexBefore dir bound disk = .ok (some token) := by
  obtain ⟨tokens, ht, hm⟩ := h.tokensWith_ok hd (show Path.Plain indexFile by decide)
  have hin : token ∈ tokens.filter fun token => token.value ≤ bound.value := by
    rw [List.mem_filter]
    exact ⟨(hm token).mpr hp, decide_eq_true hb⟩
  have hnewest := Token.newest?_eq hin fun other ho => by
    rw [List.mem_filter, decide_eq_true_iff] at ho
    exact hle other ho.2 ((hm other).mp ho.1)
  simp only [latestIndexBefore, ht, bind, Except.bind, hnewest]
  rfl

theorem latestIndexBefore_none (h : Tidy disk place) (hd : Disk.Homed disk dir place)
    {bound : Token} (hp : ∀ token : Token, token.value ≤ bound.value →
      part? disk place token indexFile = none) :
    latestIndexBefore dir bound disk = .ok none := by
  obtain ⟨tokens, ht, hm⟩ := h.tokensWith_ok hd (show Path.Plain indexFile by decide)
  have hnil : tokens.filter (fun token => token.value ≤ bound.value) = [] := by
    rw [List.eq_nil_iff_forall_not_mem]
    intro token ho
    rw [List.mem_filter, decide_eq_true_iff] at ho
    simpa [hp token ho.2] using (hm token).mp ho.1
  simp only [latestIndexBefore, ht, bind, Except.bind, hnil]
  rfl

end Tidy

end CheckpointDir

end PredicateIndex
