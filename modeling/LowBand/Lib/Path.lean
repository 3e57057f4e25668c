import Mathlib.Data.List.DropRight
import Mathlib.Data.List.TakeDrop
import Mathlib.Tactic.Common

/-!
# Names joined to a directory

What a name means that is joined to a directory, on the two families of operating systems. A path is
the list of its components from the root.

On Unix a name is cut at slashes, and a name that starts with one goes back to the root. On Windows
it is cut at slashes and backslashes; a letter with a colon in front designates a drive, another
colon a stream of the file, and dots and spaces at the end of a component are dropped. Empty
components and single dots stay where they are, and two dots go up, on both. On Windows some names
are reserved for devices, in every directory, in upper and lower case and with any extension
(`isDevice`): a path that ends in one opens the device.

A name that is a single component by its characters (`IsComponent`) is a direct child of the
directory, with that very name, on Unix (`IsComponent.unixJoin`), and on Windows unless it is that
of a device (`IsComponent.windowsJoin`, `IsComponent.windowsJoin_device`).
-/

namespace Lib.Path

/-- A component as seen from a directory. -/
def enter (dir : List (List Char)) (component : List Char) : List (List Char) :=
  if component = [] ∨ component = ['.'] then dir
  else if component = ['.', '.'] then dir.dropLast
  else dir ++ [component]

/-! ## Unix -/

/-- The path of a name that is joined to a directory, if it is one. -/
def unixJoin (dir : List (List Char)) (name : List Char) : Option (List (List Char)) :=
  if '\x00' ∈ name then none
  else
    let base := if name.head? = some '/' then [] else dir
    some ((name.splitOn '/').foldl enter base)

/-! ## Windows -/

/-- The separators. -/
def isSeparator (c : Char) : Bool := c = '/' || c = '\\'

/-- The characters that are dropped at the end of a component. -/
def isTrailing (c : Char) : Bool := c = '.' || c = ' '

/-- A component without the dots and spaces at its end. The components `.` and `..` are kept. -/
def trimmed (component : List Char) : List Char :=
  if component = ['.'] ∨ component = ['.', '.'] then component
  else component.rdropWhile isTrailing

/-- A file or a stream of it. -/
structure Target where
  /-- The path of the file. -/
  path : List (List Char)
  /-- The stream that is named, if any. -/
  stream : Option (List Char)
deriving DecidableEq

/-- A drive is designated: the name is resolved against the directory of that drive. -/
def hasDrive : List Char → Bool
  | c :: ':' :: _ => c.isAlpha
  | _ => false

/-- The reserved names, without extensions. Ports have a digit from 1 on, which may be raised. -/
def deviceNames : List (List Char) :=
  ["CON", "PRN", "AUX", "NUL", "CONIN$", "CONOUT$"].map String.toList ++
    ["COM", "LPT"].flatMap fun port => "123456789¹²³".toList.map fun digit => port.toList ++ [digit]

/-- A component without its extension or stream, and without spaces in front of that. -/
def stem (component : List Char) : List Char :=
  (component.takeWhile fun c => c ≠ '.' && c ≠ ':').rdropWhile (· = ' ')

/-- A component is the name of a device. -/
def isDevice (component : List Char) : Bool :=
  deviceNames.contains ((stem component).map Char.toUpper)

/-- The target of a name that is joined to a directory, if it is a file on the drive of the
directory. -/
def windowsJoin (dir : List (List Char)) (name : List Char) : Option Target :=
  if '\x00' ∈ name ∨ hasDrive name ∨ (name.splitOnP isSeparator).getLast?.any isDevice then none
  else
    let base := if name.head?.any isSeparator then [] else dir
    let (file, stream) := name.span (· ≠ ':')
    let path := ((file.splitOnP isSeparator).map trimmed).foldl enter base
    some ⟨path, if stream = [] then none else some stream.tail⟩

/-! ## Single components -/

/-- A name that is a single component on both systems: it has no separator, no designator of a drive
or a stream and no NUL, is not empty, does not consist of dots, and does not end in a dot or a
space. -/
structure IsComponent (name : List Char) : Prop where
  /-- It has no slash. -/
  slash : '/' ∉ name
  /-- It has no backslash. -/
  backslash : '\\' ∉ name
  /-- It designates no drive or stream. -/
  colon : ':' ∉ name
  /-- It has no NUL. -/
  nul : '\x00' ∉ name
  /-- It is not empty. -/
  nonempty : name ≠ []
  /-- It does not consist of dots. -/
  dots : ∃ c ∈ name, c ≠ '.'
  /-- It does not end in a dot or a space. -/
  last : ∀ c ∈ name.getLast?, c ≠ '.' ∧ c ≠ ' '

variable {name : List Char}

/-- A name that is not made of dots is entered. -/
theorem IsComponent.enter (h : IsComponent name) (dir : List (List Char)) :
    enter dir name = dir ++ [name] := by
  obtain ⟨c, hc, hdot⟩ := h.dots
  have hone : ¬ (name = [] ∨ name = ['.']) := by
    rintro (rfl | rfl)
    · cases hc
    · exact hdot (List.mem_singleton.mp hc)
  have htwo : name ≠ ['.', '.'] := by
    rintro rfl
    simp at hc
    exact hdot hc
  rw [Path.enter, if_neg hone, if_neg htwo]

/-- On Unix a single component is a direct child with that name. -/
theorem IsComponent.unixJoin (h : IsComponent name) (dir : List (List Char)) :
    unixJoin dir name = some (dir ++ [name]) := by
  have hhead : name.head? ≠ some '/' := fun hhead => h.slash (List.mem_of_head? hhead)
  have hsplit : name.splitOn '/' = [name] := by
    refine List.splitOnP_eq_singleton fun c hc => ?_
    rw [beq_eq_false_iff_ne]
    rintro rfl
    exact h.slash hc
  rw [Path.unixJoin, if_neg h.nul, if_neg hhead, hsplit]
  exact congrArg some (h.enter dir)

/-- A single component keeps its characters. -/
theorem IsComponent.trimmed (h : IsComponent name) : trimmed name = name := by
  rw [Path.trimmed]
  split
  · rfl
  · rw [List.rdropWhile_eq_self_iff]
    intro hne
    have hlast := h.last _ (List.getLast?_eq_some_getLast hne)
    simp [isTrailing, hlast]

/-- A single component has no separators. -/
theorem IsComponent.not_separator (h : IsComponent name) : ∀ c ∈ name, isSeparator c = false := by
  intro c hc
  rw [isSeparator, Bool.or_eq_false_iff, decide_eq_false_iff_not, decide_eq_false_iff_not]
  constructor
  · rintro rfl
    exact h.slash hc
  · rintro rfl
    exact h.backslash hc

/-- On Windows a single component that names a device is no file. -/
theorem IsComponent.windowsJoin_device (h : IsComponent name) (hdevice : isDevice name = true)
    (dir : List (List Char)) : windowsJoin dir name = none := by
  have hsplit : name.splitOnP isSeparator = [name] := List.splitOnP_eq_singleton h.not_separator
  rw [Path.windowsJoin, hsplit]
  exact if_pos (.inr (.inr hdevice))

/-- On Windows every other single component is a direct child with that name, and no stream of
it. -/
theorem IsComponent.windowsJoin (h : IsComponent name) (hdevice : isDevice name = false)
    (dir : List (List Char)) : windowsJoin dir name = some ⟨dir ++ [name], none⟩ := by
  have hsep := h.not_separator
  have hsplit : name.splitOnP isSeparator = [name] := List.splitOnP_eq_singleton hsep
  have hhead : ¬ name.head?.any isSeparator = true := by
    rw [Option.any_eq_true]
    rintro ⟨c, hc, hsep'⟩
    rw [hsep c (List.mem_of_head? hc)] at hsep'
    cases hsep'
  -- Without a colon there is neither a drive nor a stream behind the name.
  have hdrive : hasDrive name = false := by
    unfold hasDrive
    split
    · exact absurd (by simp) h.colon
    · rfl
  have hspan : name.span (· ≠ ':') = (name, []) := by
    have hne : ∀ c ∈ name, decide (c ≠ ':') = true := by
      intro c hc
      rw [decide_eq_true_iff]
      rintro rfl
      exact h.colon hc
    rw [List.span_eq_takeWhile_dropWhile, List.takeWhile_eq_self_iff.mpr hne,
      List.dropWhile_eq_nil_iff.mpr hne]
  -- So the one component is entered as it stands.
  rw [Path.windowsJoin, hsplit, if_neg (by simp [h.nul, hdrive, hdevice]), if_neg hhead, hspan]
  simp only [hsplit, List.map_singleton, h.trimmed, List.foldl_cons, List.foldl_nil, h.enter,
    if_true]

end Lib.Path
