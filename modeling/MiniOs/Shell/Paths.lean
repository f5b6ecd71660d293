import Mathlib.Data.List.Basic
import MiniOs.Lib.Fields
import MiniOs.Shell.Token

/-!
# Path strings

Paths are byte strings that the shell builds in buffers of `PATH_MAX` bytes. What a path
denotes is read off its components: a relative path starts at the current directory, and
neither repeated slashes nor components `.` matter. The components are not interpreted
further, so nothing is assumed about links or about `..`.
-/

namespace MiniOs.Shell

open Fields

def Byte.percent : Byte := 37

def Byte.dot : Byte := 46

def Byte.slash : Byte := 47

def Byte.colon : Byte := 58

def pathMax : ℕ := 4096

/-- What `snprintf` leaves of a text in a buffer of `size` bytes. -/
def snprintf (size : ℕ) (text : List Byte) : List Byte := text.take (size - 1)

def components (path : List Byte) : List (List Byte) :=
  (fields Byte.slash path).filter (· ≠ [Byte.dot])

/-- The file that a path denotes in the directory `cwd`, by its names from the root. -/
def denoted (cwd path : List Byte) : List (List Byte) :=
  if path.head? = some Byte.slash then components path else components cwd ++ components path

/-- The path ends in a slash or in a component `.`. -/
def namesDir (path : List Byte) : Bool :=
  (split Byte.slash path).getLast? = some [] ∨ (split Byte.slash path).getLast? = some [Byte.dot]

variable {a b path : List Byte}

theorem snprintf_of_lt {size : ℕ} (h : path.length < size) : snprintf size path = path :=
  List.take_of_length_le (Nat.le_sub_one_of_lt h)

theorem components_append (a b : List Byte) :
    components (a ++ Byte.slash :: b) = components a ++ components b := by
  simp [components, fields_append]

@[simp] theorem components_nil : components [] = [] := rfl

@[simp] theorem components_slash : components [Byte.slash] = [] := rfl

@[simp] theorem components_dot : components [Byte.dot] = [] := rfl

theorem namesDir_append (a b : List Byte) : namesDir (a ++ Byte.slash :: b) = namesDir b := by
  have hne : (split Byte.slash b).getLast? ≠ none :=
    fun h => split_ne_nil Byte.slash b (List.getLast?_eq_none_iff.mp h)
  obtain ⟨l, hl⟩ := Option.ne_none_iff_exists'.mp hne
  simp only [namesDir, split_append, List.getLast?_append, hl, Option.some_or]

theorem snprintf_append_of_length {size : ℕ} (h : a.length + 1 = size) (b : List Byte) :
    snprintf size (a ++ b) = a := by
  rw [snprintf, ← h, Nat.add_sub_cancel, List.take_left]

end MiniOs.Shell
