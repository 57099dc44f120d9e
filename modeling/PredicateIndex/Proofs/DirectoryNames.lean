import Mathlib.Data.List.Induction
import PredicateIndex.Proofs.CheckpointCodec
import PredicateIndex.Proofs.CheckpointParts

/-!
# Names that are read as tokens

A token is read off a directory's name more freely than it is written: a sign,
capitals and zeros in front make no difference. A part is read only from the
directory whose name the token writes. So the newest token that directories
with a part are read as has no readable part if its directory is spelled
otherwise, and another token may be the newest that has one.
-/

set_option autoImplicit false

namespace PredicateIndex

namespace Hex

variable {cs : List Char} {n : Nat}

def significant (cs : List Char) : List Char := (cs.map Char.toLower).dropWhile (· = '0')

theorem digit?_of_le {c : Char} (h : 128 ≤ c.toNat) : digit? c = none ∧ c.toLower = c := by
  have hval : 128 ≤ c.val.toNat := h
  refine ⟨?_, ?_⟩
  · simp only [digit?]
    rw [if_neg (by omega), if_neg (by omega), if_neg (by omega)]
  · refine dif_neg ?_
    rintro ⟨-, hle⟩
    have : c.val.toNat ≤ 90 := hle
    omega

theorem exists_ofNat {c : Char} (h : c.toNat < 128) : ∃ i : Fin 128, c = Char.ofNat i.val :=
  ⟨⟨c.toNat, h⟩, (Char.ofNat_toNat c).symm⟩

theorem digit?_toLower (c : Char) : digit? c.toLower = digit? c := by
  rcases Nat.lt_or_ge c.toNat 128 with h | h
  · have hall : ∀ i : Fin 128, digit? (Char.ofNat i.val).toLower = digit? (Char.ofNat i.val) := by
      decide
    obtain ⟨i, rfl⟩ := exists_ofNat h
    exact hall i
  · rw [(digit?_of_le h).2]

theorem toLower_of_digit? {c : Char} {d : Nat} (h : digit? c = some d) :
    d < 16 ∧ c.toLower = digit d := by
  rcases Nat.lt_or_ge c.toNat 128 with hc | hc
  · have hall : ∀ i : Fin 128, ((digit? (Char.ofNat i.val)).all fun d =>
        decide (d < 16 ∧ (Char.ofNat i.val).toLower = digit d)) = true := by
      decide
    obtain ⟨i, rfl⟩ := exists_ofNat hc
    have hi := hall i
    rw [h] at hi
    exact of_decide_eq_true hi
  · rw [(digit?_of_le hc).1] at h
    cases h

theorem value?_toLower (cs : List Char) : value? (cs.map Char.toLower) = value? cs := by
  rw [value?, value?, List.foldlM_map]
  simp only [digit?_toLower]

theorem value?_dropZeros (cs : List Char) : value? (cs.dropWhile (· = '0')) = value? cs := by
  induction cs with
  | nil => rfl
  | cons c cs ih =>
    by_cases h : c = '0'
    · subst h
      rw [List.dropWhile_cons_of_pos (by decide), ih]
      rfl
    · rw [List.dropWhile_cons_of_neg (by simpa using h)]

theorem value?_significant (cs : List Char) : value? (significant cs) = value? cs := by
  rw [significant, value?_dropZeros, value?_toLower]

theorem value?_snoc (cs : List Char) (c : Char) :
    value? (cs ++ [c]) = (value? cs).bind fun n => (digit? c).map (16 * n + ·) := by
  rw [value?, List.foldlM_append]
  simp [value?]

theorem digits_of_value? (h : value? cs = some n) :
    n < count cs.length ∧ cs.map Char.toLower = digits cs.length n := by
  induction cs using List.reverseRecOn generalizing n with
  | nil =>
    obtain rfl := Option.some.inj h
    exact ⟨Nat.one_pos, rfl⟩
  | append_singleton cs c ih =>
    rw [value?_snoc] at h
    obtain ⟨m, hm, hlast⟩ := Option.bind_eq_some_iff.mp h
    obtain ⟨d, hd, rfl⟩ := Option.map_eq_some_iff.mp hlast
    obtain ⟨hlt, hdigit⟩ := toLower_of_digit? hd
    obtain ⟨hcount, hfront⟩ := ih hm
    have hdiv : (16 * m + d) / 16 = m := by omega
    have hmod : (16 * m + d) % 16 = d := by omega
    rw [List.length_append, List.length_singleton]
    refine ⟨?_, ?_⟩
    · rw [count]
      omega
    · rw [List.map_append, hfront, digits, hdiv, hmod]
      exact congrArg (digits cs.length m ++ [·]) hdigit

theorem digits_succ {width : Nat} (h : n < count width) :
    digits (width + 1) n = '0' :: digits width n := by
  induction width generalizing n with
  | zero =>
    obtain rfl : n = 0 := Nat.lt_one_iff.mp h
    rfl
  | succ width ih =>
    have hdiv : n / 16 < count width := by
      rw [count] at h
      omega
    rw [digits, ih hdiv]
    rfl

theorem count_le {width wider : Nat} (h : width ≤ wider) : count width ≤ count wider := by
  induction h with
  | refl => exact Nat.le_refl _
  | step _ ih =>
    rw [count]
    omega

/-- How many digits a number is written with does not count. -/
theorem dropZeros_digits {width wider : Nat} (hle : width ≤ wider) (h : n < count width) :
    (digits wider n).dropWhile (· = '0') = (digits width n).dropWhile (· = '0') := by
  induction hle with
  | refl => rfl
  | step hle ih =>
    rw [digits_succ (Nat.lt_of_lt_of_le h (count_le hle)),
      List.dropWhile_cons_of_pos (by decide), ih]

end Hex

namespace Token

variable {name : String} {token : Token}

/-- A name is read as the token whose text has the same digits that count. -/
theorem ofDirName?_eq_some : ofDirName? name = some token ↔
    unsigned name.toList ≠ [] ∧
      Hex.significant (unsigned name.toList) = Hex.significant token.text.toList := by
  rw [ofDirName?]
  cases hu : unsigned name.toList with
  | nil => exact iff_of_false (by simp) (by simp)
  | cons c cs =>
    constructor
    · intro h
      cases hv : Hex.value? (c :: cs) with
      | none =>
        simp [hv] at h
      | some n =>
        simp only [hv] at h
        split at h
        · rename_i hlt
          obtain rfl := Option.some.inj h
          have hword : (UInt64.ofNat n).toNat = n := Nat.mod_eq_of_lt hlt
          obtain ⟨hcount, hdigits⟩ := Hex.digits_of_value? hv
          obtain ⟨htoken, htext⟩ := Hex.digits_of_value? (value?_text ⟨UInt64.ofNat n⟩)
          rw [hword] at htoken htext
          refine ⟨by simp, ?_⟩
          rw [Hex.significant, Hex.significant, hdigits, htext]
          rcases Nat.le_total (c :: cs).length (text ⟨UInt64.ofNat n⟩).toList.length with hle | hle
          · exact (Hex.dropZeros_digits hle hcount).symm
          · exact Hex.dropZeros_digits hle htoken
        · cases h
    · rintro ⟨-, hs⟩
      have hv := Hex.value?_significant (c :: cs)
      rw [hs, Hex.value?_significant, value?_text] at hv
      simp only [← hv, if_pos token.value.toNat_lt, UInt64.ofNat_toNat]

end Token

namespace Frame

theorem decode_error {α : Type} {value : Reader α} {bytes : Bytes} {fault : Fault}
    (h : decode value bytes = .error fault) :
    fault = .truncatedFrame ∨ fault = .file .endOfFile ∨ fault = .badChecksum ∨
      fault = .truncatedPayload := by
  rw [decode] at h
  cases hu : unwrap bytes with
  | error broken =>
    rw [hu] at h
    obtain rfl : broken = fault := Except.error.inj h
    rw [unwrap] at hu
    repeat' split at hu
    all_goals cases hu
    all_goals simp
  | ok payload =>
    rw [hu] at h
    cases hv : value payload with
    | none =>
      simp only [bind, Except.bind, Payload.decode, hv] at h
      cases h
      simp
    | some decoded => simp [bind, Except.bind, Payload.decode, hv] at h

end Frame

namespace Disk

theorem resolve_error {disk : Disk} {path : Path} {cause : Fault.File}
    (h : disk.resolve path = .error cause) : cause = .notFound ∨ cause = .notDirectory := by
  rw [resolve] at h
  generalize ([] : Path) = place at h
  induction path generalizing place with
  | nil => cases h
  | cons component path ih =>
    rw [List.foldlM_cons] at h
    cases hs : disk.step place component with
    | ok next =>
      rw [hs] at h
      exact ih next h
    | error stopped =>
      rw [hs] at h
      obtain rfl : stopped = cause := Except.error.inj h
      rw [step] at hs
      split at hs
      · exact Or.inl (Except.error.inj hs).symm
      · exact Or.inr (Except.error.inj hs).symm
      · cases hs

theorem locate_error {disk : Disk} {path : Path} {cause : Fault.File}
    (h : disk.locate path = .error cause) : cause = .notFound ∨ cause = .notDirectory := by
  cases hr : disk.resolve path with
  | error stopped =>
    simp only [locate, hr, bind, Except.bind] at h
    obtain rfl : stopped = cause := Except.error.inj h
    exact resolve_error hr
  | ok place =>
    simp only [locate, hr, bind, Except.bind] at h
    split at h
    · cases h
    · exact Or.inl (Except.error.inj h).symm

end Disk

namespace CheckpointDir

variable {α : Type} {dir : Path} {disk : Disk} {name : String} {token : Token}

def Found (outcome : Except Fault α) : Prop :=
  (∀ name token, outcome ≠ .error (.noCheckpointFile name token)) ∧
    outcome ≠ .error (.file .notDirectory)

theorem found_decode (value : Reader α) (bytes : Bytes) : Found (Frame.decode value bytes) := by
  refine ⟨fun name token h => ?_, fun h => ?_⟩ <;>
  · rcases Frame.decode_error h with hf | hf | hf | hf <;> cases hf

theorem found_read (value : Reader α) : Found (read dir token name value disk) ↔
    disk.exists? ((tokenDir dir token).child name) = true := by
  cases hl : disk.locate ((tokenDir dir token).child name) with
  | error cause =>
    refine iff_of_false ?_ (by simp [Disk.exists?, hl, Except.isOk, Except.toBool])
    have hread : disk.read ((tokenDir dir token).child name) = .error cause := by
      simp only [Disk.read, Disk.find, hl, bind, Except.bind]
    rintro ⟨hmissing, hblocked⟩
    rcases Disk.locate_error hl with rfl | rfl
    · exact hmissing name token (by simp only [read, hread])
    · exact hblocked (by simp only [read, hread])
  | ok found =>
    refine iff_of_true ?_ (by simp [Disk.exists?, hl, Except.isOk, Except.toBool])
    obtain ⟨place, entry⟩ := found
    cases entry with
    | directory =>
      have hread : disk.read ((tokenDir dir token).child name) = .error .isDirectory := by
        simp only [Disk.read, Disk.find, hl, bind, Except.bind]
        rfl
      simp [Found, read, hread]
    | file id =>
      have hread : disk.read ((tokenDir dir token).child name) = .ok (disk.content id) := by
        simp only [Disk.read, Disk.find, hl, bind, Except.bind]
        rfl
      simp only [read, hread]
      exact found_decode value _

structure Greatest (p : Token → Prop) (answer : Option Token) : Prop where
  some : ∀ token, answer = some token → p token ∧ ∀ other, p other → other.value ≤ token.value
  none : answer = none → ∀ token, ¬ p token

theorem greatest_newest? (tokens : List Token) : Greatest (· ∈ tokens) (Token.newest? tokens) where
  some _ h := Token.newest?_spec h
  none h token hm := by
    rw [Token.newest?_eq_none] at h
    rw [h] at hm
    cases hm

theorem Greatest.congr {p q : Token → Prop} {answer : Option Token} (h : Greatest p answer)
    (hpq : ∀ token, q token ↔ p token) : Greatest q answer := by
  rwa [funext fun token => propext (hpq token)]

/-- The greatest of more tokens is the greatest of some of them just if it is one of these. -/
theorem Greatest.narrow {p q : Token → Prop} {answer : Option Token} (h : Greatest p answer)
    (hqp : ∀ token, q token → p token) :
    Greatest q answer ↔ ∀ token, answer = .some token → q token := by
  constructor
  · exact fun hq token ha => (hq.some token ha).1
  · intro hq
    exact ⟨fun token ha => ⟨hq token ha, fun other ho => (h.some token ha).2 other (hqp other ho)⟩,
      fun ha token ht => h.none ha token (hqp token ht)⟩

/-- What is answered for the newest of the parts that have some of the tokens. The answer is the
greatest token that a directory with the part is read as; it is the greatest whose part is found
just if its own part is, which holds where directories with the part have written names. -/
structure Newest (dir : Path) (name : String) (disk : Disk) (among found : Token → Prop)
    (answer : Option Token) : Prop where
  named : Greatest (fun token => among token ∧ Named dir name disk token) answer
  sound : Greatest (fun token => among token ∧ found token) answer ↔
    ∀ token, answer = some token → found token
  written : (∀ child token, Token.ofDirName? child = some token →
      disk.exists? (((root dir).child child).child name) = true → child = token.text) →
    Greatest (fun token => among token ∧ found token) answer

theorem newest_of_named (value : Reader α) {among : Token → Prop} {answer : Option Token}
    (h : Greatest (fun token => among token ∧ Named dir name disk token) answer) :
    Newest dir name disk among (fun token => Found (read dir token name value disk)) answer := by
  have hnamed : ∀ token, Found (read dir token name value disk) → Named dir name disk token :=
    fun token hf => ⟨token.text, Token.ofDirName?_text token, (found_read value).mp hf⟩
  have hnarrow := h.narrow fun token (hf : among token ∧ Found (read dir token name value disk)) =>
    ⟨hf.1, hnamed token hf.2⟩
  have hsound := hnarrow.trans (forall₂_congr fun token ha => and_iff_right (h.some token ha).1.1)
  refine ⟨h, hsound, fun hw => hsound.mpr fun token ha => ?_⟩
  obtain ⟨-, child, hc, he⟩ := (h.some token ha).1
  obtain rfl := hw child token hc he
  exact (found_read value).mpr he

/-- The newest part is looked for among the names of directories, whatever stands in the checkpoint
directory. Names are read as a token that differ from its text only in a sign, in capitals and in
the zeros in front. -/
theorem latest_of_names (hr : ∀ place id, disk.locate (root dir) ≠ .ok (place, .file id)) :
    (∃ answer, latestLog dir disk = .ok answer ∧
      Newest dir logFile disk (fun _ => True) (fun token => Found (readLog dir token disk)) answer) ∧
    (∃ answer, latestIndex dir disk = .ok answer ∧
      Newest dir indexFile disk (fun _ => True) (fun token => Found (readIndex dir token disk))
        answer) ∧
    (∀ bound, ∃ answer, latestIndexBefore dir bound disk = .ok answer ∧
      Newest dir indexFile disk (fun token => token.value ≤ bound.value)
        (fun token => Found (readIndex dir token disk)) answer) ∧
    ∀ child token, Token.ofDirName? child = some token ↔
      Token.unsigned child.toList ≠ [] ∧
        Hex.significant (Token.unsigned child.toList) = Hex.significant token.text.toList := by
  obtain ⟨logs, hlogs, hlog⟩ := mem_tokensWith (show Path.Plain logFile by decide) hr
  obtain ⟨indexes, hindexes, hindex⟩ := mem_tokensWith (show Path.Plain indexFile by decide) hr
  refine ⟨⟨Token.newest? logs, ?_, newest_of_named Payload.readLog ?_⟩,
    ⟨Token.newest? indexes, ?_, newest_of_named Payload.readIndex ?_⟩,
    fun bound => ⟨Token.newest? (indexes.filter fun token => token.value ≤ bound.value), ?_,
      newest_of_named Payload.readIndex ?_⟩, fun _ _ => Token.ofDirName?_eq_some⟩
  · simp only [latestLog, hlogs]
    rfl
  · exact (greatest_newest? logs).congr fun token => by rw [hlog, true_and]
  · simp only [latestIndex, hindexes]
    rfl
  · exact (greatest_newest? indexes).congr fun token => by rw [hindex, true_and]
  · simp only [latestIndexBefore, hindexes]
    rfl
  · refine (greatest_newest? _).congr fun token => ?_
    rw [List.mem_filter, hindex, decide_eq_true_iff, and_comm]

def secondSpelling : Disk :=
  { entries := [(["checkpoints"], .directory), (["checkpoints", "0000000000000001"], .directory),
      (["checkpoints", "0000000000000001", logFile], .file 0), (["checkpoints", "2"], .directory),
      (["checkpoints", "2", logFile], .file 1)]
    files := [Frame.wrap (Payload.log ⟨⟨1⟩, 64, 64, []⟩), []] }

/-- The answer is token 2, read off the name 2; only the part of token 1 is found. -/
theorem latest_of_names_second_spelling :
    (∀ place id, secondSpelling.locate (root []) ≠ .ok (place, .file id)) ∧
    latestLog [] secondSpelling = .ok (some ⟨2⟩) ∧
    Greatest (fun token => True ∧ Named [] logFile secondSpelling token) (some ⟨2⟩) ∧
    ¬ Greatest (fun token => True ∧ Found (readLog [] token secondSpelling)) (some ⟨2⟩) := by
  have hroot : secondSpelling.locate (root []) = .ok (["checkpoints"], .directory) := by rfl
  have hr : ∀ place id, secondSpelling.locate (root []) ≠ .ok (place, .file id) := by
    intro place id h
    rw [hroot] at h
    cases h
  have hlatest : latestLog [] secondSpelling = .ok (some ⟨2⟩) := by rfl
  have hmissing : readLog [] ⟨2⟩ secondSpelling = .error (.noCheckpointFile logFile ⟨2⟩) := by rfl
  obtain ⟨⟨answer, hanswer, hnewest⟩, -⟩ := latest_of_names hr
  obtain rfl := Except.ok.inj (hlatest.symm.trans hanswer)
  refine ⟨hr, hlatest, hnewest.named, fun hg => ?_⟩
  exact (hnewest.sound.mp hg ⟨2⟩ rfl).1 logFile ⟨2⟩ hmissing

/-- The newest log that is named has no part that can be read, though another token has one. -/
theorem latest_names_missing_part :
    Token.ofDirName? "2" = some ⟨2⟩ ∧ (⟨2⟩ : Token).text ≠ "2" ∧
    latestLog [] secondSpelling = .ok (some ⟨2⟩) ∧
    readLog [] ⟨2⟩ secondSpelling = .error (.noCheckpointFile logFile ⟨2⟩) ∧
    readLog [] ⟨1⟩ secondSpelling = .ok ⟨⟨1⟩, 64, 64, []⟩ := by
  refine ⟨by rfl, by decide, by rfl, by rfl, ?_⟩
  have hread : secondSpelling.read ((tokenDir [] ⟨1⟩).child logFile) =
      .ok (Frame.wrap (Payload.log ⟨⟨1⟩, 64, 64, []⟩)) := by rfl
  simp only [readLog, read, hread]
  exact Frame.decode_log (by decide +kernel)

end CheckpointDir

end PredicateIndex
