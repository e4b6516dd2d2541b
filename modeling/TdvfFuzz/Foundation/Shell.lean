import Mathlib.Data.Nat.Digits.Defs
import Mathlib.Logic.Function.Iterate
import TdvfFuzz.Foundation.Hex

/-!
# Shell commands

The built-in commands and expansions that pass texts between the tools of a
script: command substitution, word splitting and `echo`, with and without `-e`.
-/

namespace TdvfFuzz.Foundation

/-! ## Command substitution and words -/

/-- `$(...)` around a command that prints `s`. -/
def commandSubst (s : Text) : Text := (s.filter (· ≠ '\x00')).rdropWhile (· = '\n')

/-- The characters of the default `IFS`. -/
def isBlank (c : Char) : Bool := c = ' ' ∨ c = '\t' ∨ c = '\n'

/-- The words of an unquoted expansion. -/
def shellWords (s : Text) : List Text := (s.splitOnP isBlank).filter (· ≠ [])

theorem commandSubst_newline {s : Text} (hnul : '\x00' ∉ s) (hlast : ∀ c ∈ s.getLast?, c ≠ '\n') :
    commandSubst (s ++ ['\n']) = s := by
  have hfilter : s.filter (· ≠ '\x00') = s := by
    rw [List.filter_eq_self]
    rintro c hc
    simpa using fun hzero : c = '\x00' => hnul (hzero ▸ hc)
  have hstop : s.rdropWhile (fun c => decide (c = '\n')) = s :=
    List.rdropWhile_eq_self_iff.mpr fun hne => by
      simpa using hlast _ (List.getLast?_eq_some_getLast hne)
  rw [commandSubst, List.filter_append, hfilter]
  exact (List.rdropWhile_concat_pos _ _ _ (by simp)).trans hstop

theorem commandSubst_newline_of_forall {s : Text} (h : ∀ c ∈ s, c ≠ '\x00' ∧ c ≠ '\n') :
    commandSubst (s ++ ['\n']) = s :=
  commandSubst_newline (fun hnul => (h _ hnul).1 rfl)
    fun c hc => (h c (List.mem_of_getLast? hc)).2

theorem shellWords_append_blank {b : Char} (hb : isBlank b = true) (s t : Text) :
    shellWords (s ++ b :: t) = shellWords s ++ shellWords t := by
  rw [shellWords, List.splitOnP_append_cons s t hb, List.filter_append]
  rfl

theorem shellWords_of_word {s : Text} (hne : s ≠ []) (h : ∀ c ∈ s, isBlank c = false) :
    shellWords s = [s] := by
  rw [shellWords, List.splitOnP_eq_singleton h]
  simp [hne]

theorem shellWords_joined {b : Char} (hb : isBlank b = true) {words : List Text}
    (h : ∀ word ∈ words, word ≠ [] ∧ ∀ c ∈ word, isBlank c = false) :
    shellWords ([b].intercalate words) = words := by
  induction words with
  | nil => rfl
  | cons word words ih =>
      obtain ⟨⟨hne, hword⟩, hrest⟩ := List.forall_mem_cons.mp h
      cases words with
      | nil => simpa using shellWords_of_word hne hword
      | cons next words =>
          rw [List.intercalate_cons_cons, List.append_assoc, List.singleton_append,
            shellWords_append_blank hb, shellWords_of_word hne hword, ih hrest]
          rfl

theorem shellWords_intercalate {words : List Text}
    (h : ∀ word ∈ words, word ≠ [] ∧ ∀ c ∈ word, isBlank c = false) :
    shellWords ([' '].intercalate words) = words :=
  shellWords_joined rfl h

theorem not_blank_of_mem_shellWords {s word : Text} (h : word ∈ shellWords s) :
    ∀ c ∈ word, isBlank c = false :=
  not_of_mem_splitOnP isBlank s (List.mem_filter.mp h).1

/-! ## Echo -/

def isEchoOption : Text → Bool
  | '-' :: letters => letters ≠ [] ∧ ∀ c ∈ letters, c = 'n' ∨ c = 'e' ∨ c = 'E'
  | _ => false

/-- `echo "$s"` -/
def echo (s : Text) : Text :=
  if isEchoOption s then (if 'n' ∈ s then [] else ['\n']) else s ++ ['\n']

inductive Escape where
  | stop
  | char (c : Char) (used : ℕ)
  deriving DecidableEq, Repr

def simpleEscape : Char → Option Char
  | 'a' => some '\x07'
  | 'b' => some '\x08'
  | 'e' => some '\x1b'
  | 'E' => some '\x1b'
  | 'f' => some '\x0c'
  | 'n' => some '\n'
  | 'r' => some '\r'
  | 't' => some '\t'
  | 'v' => some '\x0b'
  | '\\' => some '\\'
  | _ => none

def codeWidth : Char → Option ℕ
  | 'x' => some 2
  | 'u' => some 4
  | 'U' => some 8
  | _ => none

def digitRun (p : Char → Bool) (width : ℕ) (s : Text) : Text := (s.take width).takeWhile p

def isOctal (c : Char) : Bool := 48 ≤ c.toNat ∧ c.toNat ≤ 55

def isHex (c : Char) : Bool := (hexDigit c).isSome

def numeral (base : ℕ) (digits : Text) : ℕ :=
  digits.foldl (fun value c => base * value + (hexDigit c).getD 0) 0

/--
The escape that a backslash begins before `s`, with the number of characters
of `s` that belong to it.  The backslash of an unknown one is printed.
-/
def escapeAt : Text → Option Escape
  | [] => none
  | c :: s =>
      if c = 'c' then some .stop
      else if c = '0' then
        let digits := digitRun isOctal 3 s
        some (.char (Char.ofNat (numeral 8 digits % 256)) (digits.length + 1))
      else
        match codeWidth c with
        | some width =>
            let digits := digitRun isHex width s
            if digits = [] then none
            else some (.char (Char.ofNat (numeral 16 digits)) (digits.length + 1))
        | none => (simpleEscape c).map fun d => .char d 1

/-- `echo -e`, with `skip` characters of an escape still to be passed. -/
def echoAt : ℕ → Text → Text
  | _, [] => ['\n']
  | skip + 1, _ :: s => echoAt skip s
  | 0, c :: s =>
      if c = '\\' then
        match escapeAt s with
        | none => c :: echoAt 0 s
        | some .stop => []
        | some (.char d used) => d :: echoAt used s
      else c :: echoAt 0 s

/-- `echo -e "$s"`, where `s` is no option. -/
def echoE (s : Text) : Text := echoAt 0 s

/-- `echo -e` interprets no backslash of `s`, even with another one behind `s`. -/
def plain : Text → Bool
  | [] => true
  | c :: s => (c ≠ '\\' ∨ escapeAt (s ++ ['\\']) = none) && plain s

/-! ## What `echo -e` keeps -/

theorem digitRun_append {p : Char → Bool} {c : Char} (hc : p c = false) (width : ℕ)
    (s t : Text) : digitRun p width (s ++ c :: t) = digitRun p width s := by
  induction s generalizing width with
  | nil => cases width <;> simp [digitRun, hc]
  | cons d s ih =>
      cases width with
      | zero => simp [digitRun]
      | succ width =>
          have htail := ih width
          simp only [digitRun] at htail
          by_cases hd : p d = true
          · simp [digitRun, hd, htail]
          · simp [digitRun, hd]

theorem length_digitRun_le (p : Char → Bool) (width : ℕ) (s : Text) :
    (digitRun p width s).length ≤ s.length :=
  (List.takeWhile_prefix p).length_le.trans (List.take_prefix width s).length_le

/-- No escape but the one of a backslash reaches past a backslash. -/
theorem escapeAt_append (s r : Text) : escapeAt (s ++ '\\' :: r) = escapeAt (s ++ ['\\']) := by
  cases s with
  | nil => simp [escapeAt, codeWidth]
  | cons c s =>
      simp only [List.cons_append, escapeAt]
      rw [digitRun_append (by decide), digitRun_append (by decide)]
      cases codeWidth c with
      | none => rfl
      | some width => simp only [digitRun_append (c := '\\') (p := isHex) (by decide)]

theorem used_of_escapeAt {s r : Text} {d : Char} {used : ℕ}
    (h : escapeAt (s ++ '\\' :: r) = some (.char d used)) :
    1 ≤ used ∧ (used ≤ s.length ∨ s = [] ∧ used = 1 ∧ d = '\\') := by
  cases s with
  | nil =>
      obtain ⟨rfl, rfl⟩ : '\\' = d ∧ 1 = used := by
        simpa [escapeAt, codeWidth, simpleEscape] using h
      simp
  | cons c s =>
      simp only [List.cons_append, escapeAt] at h
      split at h
      · simp at h
      split at h
      · rw [digitRun_append (by decide)] at h
        have hlength := length_digitRun_le isOctal 3 s
        grind
      split at h
      case h_1 width _ =>
        rw [digitRun_append (by decide)] at h
        have hlength := length_digitRun_le isHex width s
        grind
      case h_2 =>
        cases hsimple : simpleEscape c with
        | none => simp [hsimple] at h
        | some e =>
            obtain ⟨rfl, rfl⟩ : e = d ∧ 1 = used := by simpa [hsimple] using h
            simp

section

variable {e d : Char} {r : Text}

theorem echoAt_escape (hescape : escapeAt (e :: r) = some (.char d 1)) :
    echoAt 0 ('\\' :: e :: r) = d :: echoAt 0 r := by
  simp [echoAt, hescape]

theorem echoAt_plain {s : Text} (h : plain s = true) :
    echoAt 0 (s ++ '\\' :: r) = s ++ echoAt 0 ('\\' :: r) := by
  induction s with
  | nil => rfl
  | cons c s ih =>
      simp only [plain, Bool.and_eq_true, decide_eq_true_eq] at h
      rw [List.cons_append, echoAt, ih h.2]
      split_ifs with hc
      · rw [escapeAt_append, h.1.resolve_left (not_not_intro hc)]
        rfl
      · rfl

/-- Nothing that `echo -e` reads gets longer. -/
theorem length_echoAt_le (he : e ≠ '\\') (hescape : escapeAt (e :: r) = some (.char d 1))
    (s : Text) (skip : ℕ) (hskip : skip ≤ s.length) :
    (echoAt skip (s ++ '\\' :: e :: r)).length ≤ s.length - skip + 1 + (echoAt 0 r).length := by
  induction s generalizing skip with
  | nil =>
      obtain rfl : skip = 0 := by simpa using hskip
      rw [List.nil_append, echoAt_escape hescape, List.length_cons]
      omega
  | cons c s ih =>
      cases skip with
      | succ skip =>
          have hrest := ih skip (by simpa using hskip)
          simpa [echoAt] using hrest
      | zero =>
          have hnext := ih 0 (by omega)
          rw [List.cons_append, echoAt]
          split_ifs with hc
          case neg => simp; omega
          split
          case h_1 => simp; omega
          case h_2 => simp
          case h_3 c' used hused =>
            obtain ⟨hpos, hle | ⟨rfl, rfl, rfl⟩⟩ := used_of_escapeAt hused
            · have hrest := ih used hle
              simp
              omega
            · simp [echoAt, he]
              omega

/--
What `echo -e` makes of `s` before an escape `\\e`.  Either it keeps `s`, or a
backslash that ends `s` takes the one of the escape, or something gets lost.
-/
theorem echoAt_cases (he : e ≠ '\\') (hescape : escapeAt (e :: r) = some (.char d 1))
    (s : Text) :
    plain s = true ∨
      (∃ s₀, s = s₀ ++ ['\\'] ∧
        echoAt 0 (s ++ '\\' :: e :: r) = s₀ ++ '\\' :: e :: echoAt 0 r) ∨
      (echoAt 0 (s ++ '\\' :: e :: r)).length ≤ s.length + (echoAt 0 r).length := by
  induction s with
  | nil => exact .inl rfl
  | cons c s ih =>
      by_cases hkeep : c ≠ '\\' ∨ escapeAt (s ++ ['\\']) = none
      · -- `c` is printed as it is and leaves the case to the rest
        have hecho : echoAt 0 (c :: s ++ '\\' :: e :: r) = c :: echoAt 0 (s ++ '\\' :: e :: r) := by
          rw [List.cons_append, echoAt]
          split_ifs with hc
          · rw [escapeAt_append, hkeep.resolve_left (not_not_intro hc)]
          · rfl
        rcases ih with hs | ⟨s₀, rfl, hs⟩ | hs
        · exact .inl (by simp [plain, hkeep, hs])
        · exact .inr (.inl ⟨c :: s₀, rfl, by rw [hecho, hs]; rfl⟩)
        · exact .inr (.inr (by rw [hecho]; simpa using by omega))
      · obtain ⟨hc, hescaped⟩ := not_or.mp hkeep
        obtain rfl : c = '\\' := not_not.mp hc
        obtain ⟨escape, hcase⟩ := Option.ne_none_iff_exists'.mp hescaped
        rw [← escapeAt_append s (e :: r)] at hcase
        right
        cases escape with
        | stop => exact .inr (by simp [echoAt, hcase])
        | char c' used =>
            have hecho : echoAt 0 ('\\' :: s ++ '\\' :: e :: r) =
                c' :: echoAt used (s ++ '\\' :: e :: r) := by simp [echoAt, hcase]
            obtain ⟨hpos, hle | ⟨rfl, rfl, rfl⟩⟩ := used_of_escapeAt hcase
            · have hrest := length_echoAt_le he hescape s used hle
              right
              rw [hecho]
              simp
              omega
            · exact .inl ⟨[], rfl, hecho.trans (by simp [echoAt, he])⟩

end

/-! ## `cksum` -/

def crcBit (crc : BitVec 32) : BitVec 32 :=
  if crc.msb then crc <<< 1 ^^^ 0x04C11DB7#32 else crc <<< 1

def crcByte (crc : BitVec 32) (byte : ℕ) : BitVec 32 :=
  crcBit^[8] (crc ^^^ BitVec.ofNat 32 byte <<< 24)

/-- The two numbers that `cksum` prints: the checksum, which covers the length, and the length. -/
def cksum (s : Text) : ℕ × ℕ :=
  let bytes := (s.flatMap String.utf8EncodeChar).map UInt8.toNat
  ((~~~ (bytes ++ Nat.digits 256 bytes.length).foldl crcByte 0#32).toNat, bytes.length)

end TdvfFuzz.Foundation
