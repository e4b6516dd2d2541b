import Mathlib.Data.Char
import Mathlib.Data.Finset.Sort
import Mathlib.Data.List.Lex
import Mathlib.Data.Prod.Lex
import Mathlib.Order.Fin.Basic
import TdvfFuzz.Foundation.Text

/-!
# Paths and locations of `fast_matcher`

Paths are sequences of components, as `Path::components` yields them.  A
location is a normalized path with a line number.
-/

namespace TdvfFuzz.FastMatcher

open TdvfFuzz.Foundation

structure FileName where
  text : Text
  proper : text ≠ [] ∧ text ≠ ['.'] ∧ text ≠ ['.', '.']
  noSlash : '/' ∉ text
  deriving DecidableEq, Repr

inductive Component where
  | rootDir
  | curDir
  | parentDir
  | normal (name : FileName)
  deriving DecidableEq, Repr

namespace Component

def text : Component → Text
  | .rootDir => ['/']
  | .curDir => ['.']
  | .parentDir => ['.', '.']
  | .normal name => name.text

/-- Variants in the order in which they are declared, names by their text. -/
def key : Component → ℕ ×ₗ Text
  | .rootDir => toLex (0, [])
  | .curDir => toLex (1, [])
  | .parentDir => toLex (2, [])
  | .normal name => toLex (3, name.text)

end Component

def component (piece : Text) : Option Component :=
  if h : (piece ≠ [] ∧ piece ≠ ['.'] ∧ piece ≠ ['.', '.']) ∧ '/' ∉ piece then
    some (.normal ⟨piece, h.1, h.2⟩)
  else if piece = ['.', '.'] then some .parentDir
  else none

/-- `Path::components` on Unix: a `.` counts only in front of a relative path. -/
def components (path : Text) : List Component :=
  (if path.head? = some '/' then [.rootDir]
    else if (path.splitOn '/').head? = some ['.'] then [.curDir]
    else []) ++ (path.splitOn '/').filterMap component

/-- One iteration of the loop of `normalize`. -/
def pushComponent (stack : List Component) : Component → List Component
  | .curDir => stack
  | .parentDir =>
      match stack.getLast? with
      | some .rootDir => stack
      | some .curDir => stack -- `unreachable!()`: never on the stack
      | some .parentDir => stack ++ [.parentDir]
      | some (.normal _) => stack.dropLast
      | none => stack ++ [.parentDir]
  | component => stack ++ [component]

def normalize (path : List Component) : List Component :=
  match path.foldl pushComponent [] with
  | [] => [.curDir]
  | stack => stack

theorem curDir_not_mem_pushComponent {stack : List Component} {c : Component}
    (h : .curDir ∉ stack) : .curDir ∉ pushComponent stack c := by
  have hdrop : .curDir ∉ stack.dropLast := fun hmem => h (List.mem_of_mem_dropLast hmem)
  cases c with
  | rootDir => simpa [pushComponent] using h
  | curDir => exact h
  | parentDir =>
      simp only [pushComponent]
      split <;> simp_all
  | normal name => simpa [pushComponent] using h

/-- The branch marked `unreachable!()` is never taken. -/
theorem curDir_not_mem_foldl (path stack : List Component) (h : .curDir ∉ stack) :
    .curDir ∉ path.foldl pushComponent stack := by
  induction path generalizing stack with
  | nil => exact h
  | cons c path ih => exact ih _ (curDir_not_mem_pushComponent h)

/-- `path.display()` -/
def displayPath : List Component → Text
  | .rootDir :: rest => '/' :: ['/'].intercalate (rest.map Component.text)
  | path => ['/'].intercalate (path.map Component.text)

/-- `path.strip_prefix(prefix).unwrap_or(path)` -/
def stripPrefix (pre path : List Component) : List Component :=
  if pre <+: path then path.drop pre.length else path

/-! ## Locations -/

structure LineInfo where
  path : List Component
  line : UInt32
  deriving DecidableEq, Repr

namespace LineInfo

def new (path : List Component) (line : UInt32) : LineInfo := ⟨normalize path, line⟩

/-- `path:line` -/
def display (location : LineInfo) : Text :=
  displayPath location.path ++ ':' :: Nat.toDigits 10 location.line.toNat

/-- Locations are ordered by path, component by component, and then by line. -/
def key (location : LineInfo) : List (ℕ ×ₗ Text) ×ₗ ℕ :=
  toLex (location.path.map Component.key, location.line.toNat)

end LineInfo

theorem FileName.ext {a b : FileName} (h : a.text = b.text) : a = b := by
  cases a
  cases b
  simpa using h

theorem Component.key_injective : Function.Injective Component.key := by
  intro a b h
  cases a <;> cases b <;> simp [Component.key] at h ⊢
  exact FileName.ext h

theorem LineInfo.key_injective : Function.Injective LineInfo.key := by
  rintro ⟨path, line⟩ ⟨path', line'⟩ h
  obtain ⟨hpath, hline⟩ := Prod.mk.inj (toLex.injective h)
  obtain rfl := List.map_injective_iff.mpr Component.key_injective hpath
  obtain rfl := UInt32.toNat_inj.mp hline
  rfl

instance : LinearOrder LineInfo := LinearOrder.lift' LineInfo.key LineInfo.key_injective

/-- `sorted(hits)` -/
def sorted (hits : Finset LineInfo) : List LineInfo := hits.sort (· ≤ ·)

/-- `for hit in sorted(hits) { println!("{}", hit) }` -/
def printHits (hits : Finset LineInfo) : Text :=
  (sorted hits).flatMap fun hit => hit.display ++ ['\n']

end TdvfFuzz.FastMatcher
