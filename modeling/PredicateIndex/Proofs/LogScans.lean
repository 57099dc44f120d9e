import PredicateIndex.Proofs.LogRecords
import PredicateIndex.Proofs.LogRuns

/-!
# Scans of a log

A scan takes records off the front of the bytes between two addresses until
none is left or none can be read, and it looks at no other bytes. Between two
addresses where records begin it finds exactly the records that were appended
there, however the appends were mixed with flushes and evictions.
-/

set_option autoImplicit false

namespace PredicateIndex

namespace Bytes

theorem drop_behind {front behind : Bytes} {address place : Nat}
    (h : address + front.length ≤ place) :
    (front ++ behind).drop (place - address) =
      behind.drop (place - (address + front.length)) := by
  have hplace : place - address = front.length + (place - (address + front.length)) := by omega
  rw [hplace, List.drop_length_add_append]

end Bytes

namespace Log

/-- What a scan of bytes from an address on comes to: their records, each at its address, or the
fault of the first bytes that are not read as one. -/
inductive Scans : Nat → Bytes → Except Fault (List (Nat × LogRecord)) → Prop
  | ended (address : Nat) : Scans address [] (.ok [])
  | failed (address : Nat) {bytes : Bytes} {fault : Fault} (hb : bytes ≠ [])
      (hd : LogRecord.decode bytes = .error fault) : Scans address bytes (.error fault)
  | read {address : Nat} {front behind : Bytes} {record : LogRecord}
      {outcome : Except Fault (List (Nat × LogRecord))} (hf : record.Fills front)
      (hs : Scans (address + front.length) behind outcome) :
      Scans address (front ++ behind) (outcome.map ((address, record) :: ·))

theorem scans_records {fuel : Nat} {bytes : Bytes} (h : bytes.length ≤ fuel) (address : Nat) :
    Scans address bytes (records fuel address bytes) := by
  induction fuel generalizing address bytes with
  | zero =>
    obtain rfl := List.eq_nil_of_length_eq_zero (Nat.le_zero.mp h)
    exact .ended address
  | succ fuel ih =>
    by_cases hb : bytes = []
    · rw [hb]
      exact .ended address
    · cases hd : LogRecord.decode bytes with
      | error fault =>
        rw [records_succ hb, hd]
        exact .failed address hb hd
      | ok record =>
        obtain ⟨front, behind, rfl, hfills⟩ := LogRecord.decode_ok hd
        have hge := hfills.length_ge
        rw [List.length_append] at h
        rw [records_front hfills]
        exact .read hfills (ih (by omega) _)

namespace Scans

variable {address : Nat} {bytes : Bytes} {outcome : Except Fault (List (Nat × LogRecord))}

theorem records_eq (h : Scans address bytes outcome) {fuel : Nat} (hf : bytes.length ≤ fuel) :
    records fuel address bytes = outcome := by
  induction h generalizing fuel with
  | ended address => cases fuel <;> rfl
  | failed address hb hd =>
    cases fuel with
    | zero => exact absurd (List.eq_nil_of_length_eq_zero (Nat.le_zero.mp hf)) hb
    | succ fuel =>
      rw [records_succ hb, hd]
      rfl
  | read hfills hs ih =>
    have hge := hfills.length_ge
    rw [List.length_append] at hf
    cases fuel with
    | zero => omega
    | succ fuel => rw [records_front hfills, ih (by omega)]

theorem found_at (h : Scans address bytes outcome) {found : List (Nat × LogRecord)}
    (ho : outcome = .ok found) :
    found.Pairwise (fun a b => a.1 < b.1) ∧
      ∀ entry ∈ found, address ≤ entry.1 ∧ entry.1 < address + bytes.length ∧
        LogRecord.decode (bytes.drop (entry.1 - address)) = .ok entry.2 := by
  induction h generalizing found with
  | ended address =>
    obtain rfl := Except.ok.inj ho
    exact ⟨List.Pairwise.nil, fun entry he => absurd he List.not_mem_nil⟩
  | failed address hb hd => cases ho
  | @read address front behind record rest hfills hs ih =>
    cases rest with
    | error fault => cases ho
    | ok others =>
      obtain rfl := Except.ok.inj ho
      obtain ⟨hascending, hothers⟩ := ih rfl
      have hge := hfills.length_ge
      rw [List.length_append]
      refine ⟨List.pairwise_cons.mpr ⟨fun entry he => ?_, hascending⟩, fun entry he => ?_⟩
      · have hlow := (hothers entry he).1
        omega
      · rcases List.mem_cons.mp he with rfl | he
        · refine ⟨Nat.le_refl _, by omega, ?_⟩
          rw [Nat.sub_self, List.drop_zero, hfills.decode_append]
        · obtain ⟨hlow, hhigh, hdecoded⟩ := hothers entry he
          refine ⟨by omega, by omega, ?_⟩
          rw [Bytes.drop_behind hlow, hdecoded]

theorem fault_at (h : Scans address bytes outcome) {fault : Fault} (ho : outcome = .error fault) :
    ∃ place, address ≤ place ∧ place < address + bytes.length ∧
      LogRecord.decode (bytes.drop (place - address)) = .error fault := by
  induction h with
  | ended address => cases ho
  | failed address hb hd =>
    obtain rfl := Except.error.inj ho
    refine ⟨address, Nat.le_refl _, ?_, ?_⟩
    · have hpos := List.length_pos_iff.mpr hb
      omega
    · rw [Nat.sub_self, List.drop_zero, hd]
  | @read address front behind record rest hfills hs ih =>
    cases rest with
    | ok others => cases ho
    | error cause =>
      obtain ⟨place, hlow, hhigh, hdecoded⟩ := ih (congrArg Except.error (Except.error.inj ho))
      rw [List.length_append]
      refine ⟨place, by omega, by omega, ?_⟩
      rw [Bytes.drop_behind hlow, hdecoded]

end Scans

/-- The bytes of records that fit are scanned as these records. -/
theorem scans_image {history : List LogRecord} (hs : ∀ record ∈ history, record.key.Fits)
    (address : Nat) :
    Scans address (image history)
      (.ok ((addressed address history).map fun entry => (entry.1, entry.2.stored))) := by
  induction history generalizing address with
  | nil => exact .ended address
  | cons record rest ih =>
    have hrest := ih (fun other ho => hs other (List.mem_cons_of_mem record ho))
      (address + record.encode.length)
    rw [image_cons, addressed, ← record.length_encode]
    exact .read (LogRecord.fills_encode (hs record List.mem_cons_self)) hrest

theorem scan_iff {log : Log} {disk : Disk} {content : Bytes} {first last : Nat}
    (hr : disk.read log.path = .ok content) (hs : log.start ≤ first) (hle : first ≤ last)
    (hf : last ≤ log.flushed) (hl : last ≤ content.length)
    (outcome : Except Fault (List (Nat × LogRecord))) :
    log.scan first last disk = outcome ↔
      Scans first ((content.take last).drop first) outcome := by
  rw [scan_range hr hs hle hf hl]
  constructor
  · rintro rfl
    exact scans_records (Nat.le_refl _) first
  · intro h
    exact h.records_eq (Nat.le_refl _)

def Border (entries : List (Nat × LogRecord)) (tail address : Nat) : Prop :=
  address = tail ∨ ∃ record, (address, record) ∈ entries

theorem border_iff {history : List LogRecord} {start address : Nat} :
    Border (addressed start history) (start + (image history).length) address ↔
      ∃ front back, history = front ++ back ∧ address = start + (image front).length := by
  constructor
  · rintro (rfl | ⟨record, hr⟩)
    · exact ⟨history, [], (List.append_nil history).symm, rfl⟩
    · obtain ⟨front, back, hsplit, haddress⟩ := mem_addressed.mp hr
      exact ⟨front, record :: back, hsplit, haddress⟩
  · rintro ⟨front, back, rfl, rfl⟩
    cases back with
    | nil =>
      rw [List.append_nil]
      exact Or.inl rfl
    | cons record back => exact Or.inr ⟨record, mem_addressed.mpr ⟨front, back, rfl, rfl⟩⟩

theorem exists_between {history : List LogRecord} {start first last : Nat}
    (hf : Border (addressed start history) (start + (image history).length) first)
    (hl : Border (addressed start history) (start + (image history).length) last)
    (hle : first ≤ last) :
    ∃ front middle back, history = front ++ middle ++ back ∧
      first = start + (image front).length ∧ last = first + (image middle).length := by
  obtain ⟨front, behind, hfront, rfl⟩ := border_iff.mp hf
  obtain ⟨upto, back, hback, rfl⟩ := border_iff.mp hl
  have hprefix : front <+: upto := by
    rcases List.prefix_or_prefix_of_prefix ⟨behind, hfront.symm⟩ ⟨back, hback.symm⟩ with h | h
    · exact h
    · -- no record is empty, so the other way round the two are the same
      obtain ⟨more, rfl⟩ := h
      have hmore := length_le_image more
      rw [image_append, List.length_append] at hle
      obtain rfl : more = [] := List.eq_nil_of_length_eq_zero (by omega)
      exact ⟨[], (List.append_nil _).trans (List.append_nil upto)⟩
  obtain ⟨middle, rfl⟩ := hprefix
  refine ⟨front, middle, back, hback, rfl, ?_⟩
  rw [image_append, List.length_append, Nat.add_assoc]

theorem filter_addressed {start first last : Nat} {front middle back : List LogRecord}
    (hf : first = start + (image front).length) (hl : last = first + (image middle).length) :
    (addressed start (front ++ middle ++ back)).filter
      (fun entry => first ≤ entry.1 ∧ entry.1 < last) = addressed first middle := by
  have hbefore : (addressed start front).filter
      (fun entry => first ≤ entry.1 ∧ entry.1 < last) = [] := by
    rw [List.filter_eq_nil_iff]
    intro entry he hin
    have hb := addressed_bounds he
    have hg := entry.2.encodedLength_ge
    have hfirst := (of_decide_eq_true hin).1
    omega
  have hbetween : (addressed first middle).filter
      (fun entry => first ≤ entry.1 ∧ entry.1 < last) = addressed first middle := by
    rw [List.filter_eq_self]
    intro entry he
    have hb := addressed_bounds he
    have hg := entry.2.encodedLength_ge
    exact decide_eq_true ⟨hb.1, by omega⟩
  have hbehind : (addressed last back).filter
      (fun entry => first ≤ entry.1 ∧ entry.1 < last) = [] := by
    rw [List.filter_eq_nil_iff]
    intro entry he hin
    have hb := addressed_bounds he
    have hlast := (of_decide_eq_true hin).2
    omega
  rw [addressed_append, addressed_append, image_append, List.length_append, ← Nat.add_assoc, ← hf,
    ← hl, List.filter_append, List.filter_append, hbefore, hbetween, hbehind, List.nil_append,
    List.append_nil]

theorem Holds.scan_image {log : Log} {disk : Disk} {history : List LogRecord} {first last : Nat}
    (h : log.Holds disk (image history)) (hr : disk.read log.path = .ok (disk.content log.file))
    (hs : ∀ record ∈ history, record.key.Fits)
    (hf : Border (addressed log.start history) log.tail first)
    (hl : Border (addressed log.start history) log.tail last) (hle : first ≤ last)
    (hlast : last ≤ log.flushed) :
    log.scan first last disk =
      .ok (((addressed log.start history).filter fun entry =>
        first ≤ entry.1 ∧ entry.1 < last).map fun entry => (entry.1, entry.2.stored)) := by
  rw [h.tail_eq] at hf hl
  obtain ⟨front, middle, back, rfl, hfirst, hupto⟩ := exists_between hf hl hle
  have hpart : ((disk.content log.file).take last).drop first = image middle := by
    have hlength : (image (front ++ middle)).length = last - log.start := by
      rw [image_append, List.length_append]
      omega
    rw [h.part_content (by omega) hlast, image_append, List.take_left' hlength, image_append,
      List.drop_left' (by omega)]
  rw [filter_addressed hfirst hupto,
    scan_iff hr (by omega) hle hlast (Nat.le_trans hlast h.reaches), hpart]
  exact scans_image
    (fun record hm => hs record (List.mem_append_left _ (List.mem_append_right _ hm))) first

inductive Work where
  | append (record : LogRecord)
  | flush
  | evict
  deriving DecidableEq, Repr

def Work.act : Work → Act
  | .append record => .append record.encode
  | .flush => .flush
  | .evict => .evict

def appended : List Work → Log → Disk → List (Nat × LogRecord)
  | [], _, _ => []
  | .append record :: works, log, disk =>
    (log.tail, record) :: appended works (log.append record.encode) disk
  | .flush :: works, log, disk => appended works (log.flush disk).1 (log.flush disk).2
  | .evict :: works, log, disk => appended works (log.evict disk).1 (log.evict disk).2

def taken : List Work → List LogRecord
  | [] => []
  | .append record :: works => record :: taken works
  | .flush :: works | .evict :: works => taken works

theorem mem_taken {works : List Work} {record : LogRecord} (h : record ∈ taken works) :
    .append record ∈ works := by
  induction works with
  | nil => cases h
  | cons work works ih =>
    cases work with
    | append other =>
      rcases List.mem_cons.mp h with rfl | h
      · exact List.mem_cons_self
      · exact List.mem_cons_of_mem _ (ih h)
    | flush => exact List.mem_cons_of_mem _ (ih h)
    | evict => exact List.mem_cons_of_mem _ (ih h)

theorem flush_borders (log : Log) (disk : Disk) :
    (log.flush disk).1.tail = log.tail ∧
      ((log.flush disk).1.flushed = log.tail ∨ (log.flush disk).1.flushed = log.flushed) := by
  rw [flush]
  split
  · exact ⟨rfl, Or.inl rfl⟩
  · exact ⟨rfl, Or.inr rfl⟩

theorem appended_eq (works : List Work) (log : Log) (disk : Disk) :
    appended works log disk = addressed log.tail (taken works) := by
  induction works generalizing log disk with
  | nil => rfl
  | cons work works ih =>
    cases work with
    | append record =>
      rw [appended, ih, taken, addressed, ← record.length_encode]
      rfl
    | flush => rw [appended, ih, taken, (flush_borders log disk).1]
    | evict =>
      have htail : (log.evict disk).1.tail = log.tail := (flush_borders log disk).1
      rw [appended, ih, taken, htail]

theorem contents_works (works : List Work) (contents : Contents) :
    Contents.run (works.map Work.act) contents =
      { contents with bytes := contents.bytes ++ image (taken works) } := by
  induction works generalizing contents with
  | nil =>
    show contents = { contents with bytes := contents.bytes ++ [] }
    rw [List.append_nil]
  | cons work works ih =>
    have hrest := ih (contents.act work.act)
    cases work with
    | append record =>
      rw [taken, image_cons, ← List.append_assoc]
      exact hrest
    | flush => exact hrest
    | evict => exact hrest

theorem within_works (works : List Work) (log : Log) (disk : Disk) :
    Within (works.map Work.act) log disk := by
  induction works generalizing log disk with
  | nil => trivial
  | cons work works ih =>
    refine ⟨?_, ih _ _⟩
    cases work <;> trivial

theorem border_flushed {entries : List (Nat × LogRecord)} {log : Log}
    (h : Border entries log.tail log.flushed) (works : List Work) (disk : Disk) :
    Border (entries ++ appended works log disk) (run (works.map Work.act) log disk).1.tail
      (run (works.map Work.act) log disk).1.flushed := by
  induction works generalizing entries log disk with
  | nil =>
    rw [appended, List.append_nil]
    exact h
  | cons work works ih =>
    have hflush : Border entries (log.flush disk).1.tail (log.flush disk).1.flushed := by
      obtain ⟨htail, hflushed | hflushed⟩ := flush_borders log disk
      · exact Or.inl (hflushed.trans htail.symm)
      · rw [htail, hflushed]
        exact h
    cases work with
    | append record =>
      have happend : Border (entries ++ [(log.tail, record)]) (log.append record.encode).tail
          (log.append record.encode).flushed := by
        right
        rcases h with htail | ⟨other, ho⟩
        · refine ⟨record, List.mem_append_right _ (List.mem_singleton.mpr ?_)⟩
          rw [← htail]
          rfl
        · exact ⟨other, List.mem_append_left _ ho⟩
      rw [appended, List.append_cons]
      exact ih happend disk
    | flush => exact ih hflush _
    | evict =>
      have hevict : Border entries (log.evict disk).1.tail (log.evict disk).1.flushed := hflush
      exact ih hevict _

/-- After any work on an opened log, its file is found at its path and the log stands for the bytes
of the records that it has taken. -/
theorem holds_works {dir : Path} {disk opened after : Disk} {log grown : Log} {works : List Work}
    (hw : disk.WellFormed) (ho : open? dir disk = (.ok log, opened))
    (hr : run (works.map Work.act) log opened = (grown, after)) :
    log.tail = origin ∧ log.flushed = origin ∧ grown.start = origin ∧
      grown.Holds after (image (taken works)) ∧
      after.read grown.path = .ok (after.content grown.file) := by
  obtain ⟨place, hhome, hempty, hholds, hentry, hspares⟩ := holds_open hw ho
  obtain ⟨hfile, hpath, hwrites⟩ := run_frame (works.map Work.act) log opened
  have hrefines := (Refines.ofHolds hholds (by rw [hempty]; rfl)).run (within_works works log opened)
  rw [hr] at hfile hpath hwrites hrefines
  rw [contents_works] at hrefines
  have hstart : grown.start = origin := hrefines.start_eq
  have hbytes := hrefines.holds
  rw [← hstart] at hbytes
  have hthere : after.entry? (place ++ [fileName]) = some (.file log.file) := by
    rw [hwrites.entry?_eq]
    exact hentry
  have hhere := (hhome.mono hspares.directory).mono fun p hp => by rw [hwrites.entry?_eq, hp]
  have hread := hhere.read_child (by decide) hthere
  rw [hempty] at hpath
  refine ⟨by rw [hempty]; rfl, by rw [hempty]; rfl, hstart, hbytes, ?_⟩
  rw [hfile, hpath]
  exact hread

/-- Whatever records that fit are appended to an opened log, and whenever it is flushed or evicted
in between: a scan between two flushed addresses where records begin or end gives the records that
were appended there, with the addresses that they got and without link marks, which are not stored.
Whatever bytes the file has between two flushed addresses, a scan of them ends, with the records
that are decoded there one behind the other or with the fault of the first bytes that are no record.
It is the scan of these bytes in any other file. -/
theorem scan_appended :
    (∀ {dir : Path} {disk opened after : Disk} {log grown : Log} {works : List Work}
      {entries : List (Nat × LogRecord)},
      disk.WellFormed → open? dir disk = (.ok log, opened) →
      (∀ record, .append record ∈ works → record.key.Fits) →
      run (works.map Work.act) log opened = (grown, after) →
      appended works log opened = entries →
      entries.Pairwise (fun a b => a.1 < b.1) ∧
      (Border entries grown.tail grown.start ∧ Border entries grown.tail grown.flushed) ∧
      ∀ first last, Border entries grown.tail first → Border entries grown.tail last →
        first ≤ last → last ≤ grown.flushed →
        grown.scan first last after =
          .ok ((entries.filter fun entry => first ≤ entry.1 ∧ entry.1 < last).map
            fun entry => (entry.1, entry.2.stored))) ∧
    ∀ {log : Log} {disk : Disk} {content : Bytes} {first last : Nat},
      disk.read log.path = .ok content → log.start ≤ first → first ≤ last → last ≤ log.flushed →
      last ≤ content.length →
      (∀ outcome, log.scan first last disk = outcome ↔
        Scans first ((content.take last).drop first) outcome) ∧
      (∀ found, log.scan first last disk = .ok found →
        found.Pairwise (fun a b => a.1 < b.1) ∧
          ∀ entry ∈ found, first ≤ entry.1 ∧ entry.1 < last ∧
            LogRecord.decode ((content.take last).drop entry.1) = .ok entry.2) ∧
      (∀ fault, log.scan first last disk = .error fault →
        ∃ address, first ≤ address ∧ address < last ∧
          LogRecord.decode ((content.take last).drop address) = .error fault) ∧
      ∀ {other : Log} {elsewhere : Disk} {copy : Bytes}, elsewhere.read other.path = .ok copy →
        other.start ≤ first → last ≤ other.flushed → last ≤ copy.length →
        (copy.take last).drop first = (content.take last).drop first →
        other.scan first last elsewhere = log.scan first last disk := by
  constructor
  · intro dir disk opened after log grown works entries hw ho hfits hr hentries
    obtain ⟨htail, hflushed, hstart, hholds, hread⟩ := holds_works hw ho hr
    have hempty : Border [] log.tail log.flushed := Or.inl (hflushed.trans htail.symm)
    have hborder := border_flushed hempty works opened
    rw [hr, List.nil_append, hentries] at hborder
    rw [appended_eq, htail, ← hstart] at hentries
    subst hentries
    have hfirst : Border (addressed grown.start (taken works)) grown.tail grown.start := by
      rw [hholds.tail_eq]
      exact border_iff.mpr ⟨[], taken works, rfl, rfl⟩
    exact ⟨addressed_ascending grown.start _, ⟨hfirst, hborder⟩, fun first last hf hl hle hlast =>
      hholds.scan_image hread (fun record hm => hfits record (mem_taken hm)) hf hl hle hlast⟩
  · intro log disk content first last hr hs hle hf hl
    have hiff := scan_iff hr hs hle hf hl
    have hlength : first + ((content.take last).drop first).length = last := by
      rw [List.length_drop, List.length_take]
      omega
    have hdrop : ∀ {address : Nat}, first ≤ address →
        ((content.take last).drop first).drop (address - first) =
          (content.take last).drop address := by
      intro address ha
      rw [List.drop_drop, Nat.add_sub_cancel' ha]
    refine ⟨hiff, fun found hfound => ?_, fun fault hfault => ?_, ?_⟩
    · obtain ⟨hascending, hfound⟩ := ((hiff _).mp hfound).found_at rfl
      refine ⟨hascending, fun entry he => ?_⟩
      obtain ⟨hlow, hhigh, hdecoded⟩ := hfound entry he
      rw [hdrop hlow] at hdecoded
      exact ⟨hlow, by omega, hdecoded⟩
    · obtain ⟨address, hlow, hhigh, hdecoded⟩ := ((hiff _).mp hfault).fault_at rfl
      rw [hdrop hlow] at hdecoded
      exact ⟨address, hlow, by omega, hdecoded⟩
    · intro other elsewhere copy hcopy hos hof hcl hsame
      rw [scan_iff hcopy hos hle hof hcl, hsame]
      exact (hiff _).mp rfl

def marked : LogRecord :=
  ⟨⟨7, 1⟩, false, [⟨0, some [2, 0, 7], 1234, false, true⟩, { ordinal := 1, key := none }]⟩

def bare : LogRecord := ⟨⟨9, 0⟩, true, []⟩

def keyed : LogRecord := ⟨⟨9, 1⟩, false, [{ ordinal := 0, key := some [] }]⟩

def mixed : List Work :=
  [.append marked, .flush, .append bare, .append keyed, .evict, .append marked]

def mixedLog : Log := ⟨0, [fileName], 64, 181, 181, 234, marked.encode⟩

def restoredLog : Log := ⟨0, [fileName], 64, 181, 181, 181, []⟩

def holding (bytes : Bytes) : Disk := { earlierRun with files := [header ++ bytes] }

def shortened : Bytes := [0, 0, 0, 25] ++ (image [marked, bare, keyed]).drop 4

/-- Over the bytes of an earlier run: the flushed records are found between their addresses, also by
a log that is restored after another opening. A scan that comes to a wrong length ends there, and
one that does not is none the worse. -/
theorem scan_appended_mixed :
    run (mixed.map Work.act) (empty 0 [fileName]) earlierRun =
      (mixedLog, holding (image [marked, bare, keyed])) ∧
    mixedLog.scan 64 181 (holding (image [marked, bare, keyed])) =
      .ok [(64, marked.stored), (117, bare), (143, keyed)] ∧
    mixedLog.scan 117 143 (holding (image [marked, bare, keyed])) = .ok [(117, bare)] ∧
    (empty 0 [fileName]).restore 64 181 (holding (image [marked, bare, keyed])) =
      .ok (restoredLog, holding (image [marked, bare, keyed])) ∧
    restoredLog.scan 64 181 (holding (image [marked, bare, keyed])) =
      .ok [(64, marked.stored), (117, bare), (143, keyed)] ∧
    mixedLog.scan 64 181 (holding shortened) = .error (.badRecordLength 25) ∧
    mixedLog.scan 117 143 (holding shortened) = .ok [(117, bare)] := by
  obtain ⟨happended, hany⟩ := scan_appended
  have hopen : open? [] earlierRun = (.ok (empty 0 [fileName]), earlierRun) := by rfl
  have hrun : run (mixed.map Work.act) (empty 0 [fileName]) earlierRun =
      (mixedLog, holding (image [marked, bare, keyed])) := by decide +kernel
  have hentries : appended mixed (empty 0 [fileName]) earlierRun =
      [(64, marked), (117, bare), (143, keyed), (181, marked)] := by decide +kernel
  have hfits : ∀ record, Work.append record ∈ mixed → record.key.Fits := by
    intro record hm
    have hall : ∀ other ∈ [marked, bare, keyed, marked], other.key.Fits := by decide
    exact hall record (by simpa [mixed] using hm)
  have hread : ∀ bytes, (holding bytes).read mixedLog.path = .ok (header ++ bytes) := fun _ => rfl
  have hlength : 181 ≤ (header ++ image [marked, bare, keyed]).length ∧
      181 ≤ (header ++ shortened).length := by decide +kernel
  obtain ⟨-, -, hscan⟩ := happended wellFormed_earlierRun hopen hfits hrun hentries
  have hwhole := hscan 64 181 (Or.inr ⟨marked, by decide⟩) (Or.inr ⟨marked, by decide⟩)
    (by decide) (by decide)
  have hpart := hscan 117 143 (Or.inr ⟨bare, by decide⟩) (Or.inr ⟨keyed, by decide⟩)
    (by decide) (by decide)
  obtain ⟨-, -, -, helsewhere⟩ := hany (hread (image [marked, bare, keyed]))
    (show mixedLog.start ≤ 64 by decide) (show 64 ≤ 181 by decide) (by decide) hlength.1
  obtain ⟨-, -, -, hspared⟩ := hany (hread (image [marked, bare, keyed]))
    (show mixedLog.start ≤ 117 by decide) (show 117 ≤ 143 by decide) (by decide) (by omega)
  obtain ⟨hstops, -⟩ := hany (hread shortened)
    (show mixedLog.start ≤ 64 by decide) (show 64 ≤ 181 by decide) (by decide) hlength.2
  have hrange : ((header ++ shortened).take 181).drop 64 = shortened := by decide +kernel
  rw [hrange] at hstops
  refine ⟨hrun, hwhole, hpart, ?_, ?_, ?_, ?_⟩
  · have hcut : (holding (image [marked, bare, keyed])).setLength 0 181 =
        holding (image [marked, bare, keyed]) := by decide +kernel
    have hreaches : 181 ≤ ((holding (image [marked, bare, keyed])).content
        (empty 0 [fileName]).file).length := hlength.1
    rw [restore_of_le 64 hreaches]
    exact congrArg (fun disk => Except.ok (restoredLog, disk)) hcut
  · exact (helsewhere (hread _) (by decide) (by decide) hlength.1 rfl).trans hwhole
  · exact (hstops _).mpr (.failed 64 (by decide) rfl)
  · exact (hspared (hread _) (by decide) (by decide) (by omega) (by decide +kernel)).trans hpart

end Log

end PredicateIndex
