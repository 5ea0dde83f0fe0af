import WinnowIce.Basic
import Mathlib.Data.Finset.Sort
import Mathlib.Data.List.Basic

/-!
# WinnowIce.RFile

`sorcar::write_R_file` and `sorcar::read_R_file`, over the text of the file. The writer puts one
line per location, `e` for the empty conjunction and otherwise every predicate in increasing
order followed by a space, and separates the lines with `std::endl`. The reader takes the lines
`std::getline` gives, skips the empty ones, reads `e` as the empty conjunction and any other
line with `line_stream >> p` until that fails.

* `readRFile_writeRFile`: reading the text written for a vector of sets of 32-bit values gives
  the vector back, the empty vector and empty sets included.
-/

namespace HornVerification
namespace Sorcar

/-! ## Writing -/

/-- The characters `outfile << p` writes for an `unsigned p`: its decimal digits, most
significant first. -/
def decimal (p : Nat) : List Char :=
  if p < 10 then [Nat.digitChar p] else decimal (p / 10) ++ [Nat.digitChar (p % 10)]
termination_by p
decreasing_by omega

/-- The line written for one conjunction: `e` for the empty one, else each predicate in
increasing order followed by a space. -/
def writeLine (conjunction : Finset Nat) : List Char :=
  if conjunction = ∅ then ['e']
  else (conjunction.sort (· ≤ ·)).flatMap fun p => decimal p ++ [' ']

/-- `sorcar::write_R_file`: the lines of the conjunctions, separated by `std::endl`. -/
def writeRFile (R : Conjunctions) : List Char := ['\n'].intercalate (R.map writeLine)

/-! ## Reading -/

/-- `isspace` in the "C" locale: the space, and the characters from tab to carriage return. -/
def isSpace (c : Char) : Bool := decide (c.toNat = 32 ∨ 9 ≤ c.toNat ∧ c.toNat ≤ 13)

def skipSpace : List Char → List Char
  | c :: cs => if isSpace c then skipSpace cs else c :: cs
  | [] => []

def digitStep (v : Nat) (c : Char) : Nat := v * 10 + (c.toNat - '0'.toNat)

def readDigits (v : Nat) : List Char → Nat × List Char
  | c :: cs => if c.isDigit then readDigits (digitStep v c) cs else (v, c :: cs)
  | [] => (v, [])

/-- `line_stream >> p` for an `unsigned p`: skip white space and read the longest run of
decimal digits. It fails where no digit follows, and where the value does not fit in 32 bits. -/
def extractUnsigned (cs : List Char) : Option (Nat × List Char) :=
  match skipSpace cs with
  | c :: cs' =>
    if c.isDigit then
      let r := readDigits (digitStep 0 c) cs'
      if r.1 < 2 ^ 32 then some r else none
    else none
  | [] => none

theorem length_skipSpace_le : ∀ cs : List Char, (skipSpace cs).length ≤ cs.length
  | [] => le_rfl
  | c :: cs => by
    rw [skipSpace]
    split
    · exact (length_skipSpace_le cs).trans (Nat.le_succ _)
    · exact le_rfl

theorem length_readDigits_le (v : Nat) : ∀ cs : List Char, (readDigits v cs).2.length ≤ cs.length
  | [] => le_rfl
  | c :: cs => by
    rw [readDigits]
    split
    · exact (length_readDigits_le _ cs).trans (Nat.le_succ _)
    · exact le_rfl

theorem extractUnsigned_length {cs rest : List Char} {p : Nat}
    (h : extractUnsigned cs = some (p, rest)) : rest.length < cs.length := by
  unfold extractUnsigned at h
  have hs := length_skipSpace_le cs
  split at h
  · rename_i c cs' hcs
    dsimp only at h
    split_ifs at h
    have hr := length_readDigits_le (digitStep 0 c) cs'
    rw [Option.some.inj h] at hr
    rw [hcs, List.length_cons] at hs
    exact lt_of_le_of_lt hr (by omega)
  · cases h

/-- The loop `while (line_stream >> p) cur_R.insert(p);`. -/
def parseLine (cs : List Char) : Finset Nat :=
  match _h : extractUnsigned cs with
  | some (p, rest) => insert p (parseLine rest)
  | none => ∅
termination_by cs.length
decreasing_by exact extractUnsigned_length ‹_›

/-- One line of the file: an empty line is skipped, `e` is the empty conjunction, and any other
line is read as predicates. -/
def readLine (line : List Char) : Option (Finset Nat) :=
  if line = [] then none else if line = ['e'] then some ∅ else some (parseLine line)

/-- `sorcar::read_R_file`: the conjunctions of the lines, in order. A text that ends with a
newline has an empty last piece, which is skipped as `std::getline` never returns it. -/
def readRFile (text : List Char) : Conjunctions := (text.splitOn '\n').filterMap readLine

/-! ## The round trip -/

theorem parseLine_eq (cs : List Char) :
    parseLine cs = match extractUnsigned cs with
      | some (p, rest) => insert p (parseLine rest)
      | none => ∅ := by
  rw [parseLine]
  split <;> simp_all

theorem digitChar_facts : ∀ d, d < 10 →
    (Nat.digitChar d).isDigit = true ∧ isSpace (Nat.digitChar d) = false ∧
      (Nat.digitChar d).toNat - '0'.toNat = d ∧ Nat.digitChar d ≠ '\n' := by
  decide

theorem decimal_digits (p : Nat) : ∀ c ∈ decimal p, ∃ d < 10, c = Nat.digitChar d := by
  induction p using Nat.strong_induction_on with
  | _ p ih =>
    rw [decimal]
    split
    · simpa using ⟨p, ‹_›, rfl⟩
    · simp only [List.mem_append, List.mem_singleton]
      rintro c (hc | rfl)
      · exact ih _ (by omega) c hc
      · exact ⟨_, Nat.mod_lt _ (by omega), rfl⟩

theorem decimal_ne_nil (p : Nat) : decimal p ≠ [] := by
  rw [decimal]
  split <;> simp

theorem foldl_digitStep_decimal (p : Nat) : (decimal p).foldl digitStep 0 = p := by
  induction p using Nat.strong_induction_on with
  | _ p ih =>
    rw [decimal]
    split
    · rw [List.foldl_cons, List.foldl_nil, digitStep, (digitChar_facts p ‹_›).2.2.1]
      omega
    · rw [List.foldl_append, ih _ (by omega), List.foldl_cons, List.foldl_nil, digitStep,
        (digitChar_facts _ (Nat.mod_lt _ (by omega))).2.2.1]
      omega

theorem readDigits_append (v : Nat) (rest : List Char) :
    ∀ ds : List Char, (∀ c ∈ ds, c.isDigit = true) →
      readDigits v (ds ++ rest) = readDigits (ds.foldl digitStep v) rest := by
  intro ds
  induction ds generalizing v with
  | nil => intro; rfl
  | cons c ds ih =>
    intro h
    rw [List.cons_append, readDigits, if_pos (h c (List.mem_cons_self _ _)), List.foldl_cons,
      ih _ fun c' hc' => h c' (List.mem_cons_of_mem _ hc')]

theorem extractUnsigned_decimal {p : Nat} (hp : p < 2 ^ 32) (rest : List Char) :
    extractUnsigned (decimal p ++ ' ' :: rest) = some (p, ' ' :: rest) := by
  have hdig : ∀ c ∈ decimal p, c.isDigit = true ∧ isSpace c = false := fun c hc => by
    obtain ⟨d, hd, rfl⟩ := decimal_digits p c hc
    exact ⟨(digitChar_facts d hd).1, (digitChar_facts d hd).2.1⟩
  obtain ⟨c, cs, hcs⟩ := List.exists_cons_of_ne_nil (decimal_ne_nil p)
  have hc := hdig c (hcs ▸ List.mem_cons_self _ _)
  have hfold : cs.foldl digitStep (digitStep 0 c) = p := by
    rw [← List.foldl_cons, ← hcs, foldl_digitStep_decimal]
  rw [hcs, List.cons_append, extractUnsigned, skipSpace, if_neg (by simp [hc.2])]
  simp only [hc.1, if_true]
  rw [readDigits_append _ _ _ fun c' hc' => (hdig c' (hcs ▸ List.mem_cons_of_mem _ hc')).1,
    hfold]
  simp only [readDigits, show Char.isDigit ' ' = false from rfl, Bool.false_eq_true, if_false, hp,
    if_true]

theorem parseLine_space (cs : List Char) : parseLine (' ' :: cs) = parseLine cs := by
  have : extractUnsigned (' ' :: cs) = extractUnsigned cs := by
    simp only [extractUnsigned, skipSpace, show isSpace ' ' = true from rfl, if_true]
  rw [parseLine_eq, parseLine_eq cs, this]

theorem parseLine_written :
    ∀ ps : List Nat, (∀ p ∈ ps, p < 2 ^ 32) →
      parseLine (ps.flatMap fun p => decimal p ++ [' ']) = ps.toFinset
  | [], _ => by rw [parseLine_eq]; rfl
  | p :: ps, h => by
    rw [List.flatMap_cons, List.append_assoc, List.singleton_append, parseLine_eq,
      extractUnsigned_decimal (h p (List.mem_cons_self _ _))]
    simp only [parseLine_space, parseLine_written ps fun q hq => h q (List.mem_cons_of_mem _ hq),
      List.toFinset_cons]

theorem newline_not_mem_writeLine (conjunction : Finset Nat) : '\n' ∉ writeLine conjunction := by
  rw [writeLine]
  split
  · decide
  · simp only [List.mem_flatMap, List.mem_append, List.mem_singleton, not_exists, not_and]
    rintro p - (hc | hc)
    · obtain ⟨d, hd, hdc⟩ := decimal_digits p _ hc
      exact (digitChar_facts d hd).2.2.2 hdc.symm
    · exact absurd hc (by decide)

theorem readLine_writeLine {conjunction : Finset Nat} (h : ∀ p ∈ conjunction, p < 2 ^ 32) :
    readLine (writeLine conjunction) = some conjunction := by
  rw [writeLine]
  split
  · subst_vars
    rfl
  · rename_i hne
    obtain ⟨p, ps, hps⟩ : ∃ p ps, conjunction.sort (· ≤ ·) = p :: ps :=
      List.exists_cons_of_ne_nil fun h' => hne (by rw [← Finset.sort_toFinset (· ≤ ·) conjunction, h']; rfl)
    have hlen : 2 ≤ ((conjunction.sort (· ≤ ·)).flatMap fun p => decimal p ++ [' ']).length := by
      rw [hps, List.flatMap_cons, List.length_append, List.length_append]
      have := List.length_pos.2 (decimal_ne_nil p)
      simp only [List.length_singleton]
      omega
    rw [readLine, if_neg (by rintro h; simp [h] at hlen), if_neg (by rintro h; simp [h] at hlen),
      parseLine_written _ fun q hq => h q ((Finset.mem_sort _).1 hq), Finset.sort_toFinset]

theorem filterMap_readLine_writeLine :
    ∀ R : Conjunctions, (∀ S ∈ R, ∀ p ∈ S, p < 2 ^ 32) → (R.map writeLine).filterMap readLine = R
  | [], _ => rfl
  | S :: R, h => by
    rw [List.map_cons, List.filterMap_cons, readLine_writeLine (h S (List.mem_cons_self _ _)),
      filterMap_readLine_writeLine R fun S' hS' => h S' (List.mem_cons_of_mem _ hS')]

theorem readRFile_writeRFile_of_ne_nil {R : Conjunctions} (hR : R ≠ [])
    (h : ∀ S ∈ R, ∀ p ∈ S, p < 2 ^ 32) : readRFile (writeRFile R) = R := by
  have hnl : ∀ l ∈ R.map writeLine, '\n' ∉ l := by
    simp only [List.mem_map]
    rintro _ ⟨S, -, rfl⟩
    exact newline_not_mem_writeLine S
  rw [readRFile, writeRFile, List.splitOn_intercalate _ _ hnl (by simpa using hR),
    filterMap_readLine_writeLine R h]

/-- Reading the text `write_R_file` writes for a vector of sets of 32-bit values gives the
vector back. -/
theorem readRFile_writeRFile (R : Conjunctions) (h : ∀ S ∈ R, ∀ p ∈ S, p < 2 ^ 32) :
    readRFile (writeRFile R) = R := by
  by_cases hR : R = []
  · subst hR
    rfl
  · exact readRFile_writeRFile_of_ne_nil hR h

theorem readRFile_writeRFile_extremes :
    (∀ S ∈ [∅, ({0, 4294967295} : Finset Nat)], ∀ p ∈ S, p < 2 ^ 32) ∧
      readRFile (writeRFile [∅, {0, 4294967295}]) = [∅, {0, 4294967295}] :=
  ⟨by decide, readRFile_writeRFile _ (by decide)⟩

end Sorcar
end HornVerification
