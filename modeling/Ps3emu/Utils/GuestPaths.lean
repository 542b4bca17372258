import Mathlib.Data.List.Find
import Ps3emu.Library.Fallible

/-
  Guest paths, and the files of the host that they stand for.
  The path is a string in memory, of which the code must not
  read what comes behind its terminator.

  Key definitions include:
    * `GuestPath`, `MountPoint`
    * `splitPathImpl`, `toHost`
    * `GuestPath.Resolves`, `GuestPath.Plain`

  Key theorems include:
    * `GuestPath.splitPathImpl_eq`
    * `GuestPath.splits_iff`
    * `GuestPath.drop_eq_stripDrive_iff`
    * `GuestPath.resolves_iff`
-/

------------------------------------------------------------
-- Mount Points and Host Paths
------------------------------------------------------------

namespace Ps3emu

namespace GuestPaths

inductive MountPoint where
  | gameData
  | systemCache
  | memoryStick
  | usb
  | bluray
  | hostHome
  | hostAbsolute
  | devFlash
  | relative
deriving DecidableEq

inductive Failure where
  | outOfBounds
  | illegalMountPoint
  | unknownMountPoint
deriving DecidableEq

/- The names that are tried, in their order. -/
def named : List (List Char × MountPoint) :=
  [("/dev_hdd0".toList, .gameData),
    ("/dev_hdd1".toList, .systemCache),
    ("/dev_ms".toList, .memoryStick),
    ("/dev_usb".toList, .usb),
    ("/dev_bdvd".toList, .bluray),
    ("/app_home".toList, .hostHome),
    ("/host_root".toList, .hostAbsolute),
    ("/dev_flash".toList, .devFlash)]

/- The empty name comes last, and fits every path. -/
def mounts : List (List Char × MountPoint) :=
  named ++ [([], .relative)]

/-
  `memcmp` for as many bytes as `str` has.  All of them are
  read of both.
-/
def startsWith
    (str memory : List Char) : Except Failure Bool :=
  if str.length ≤ memory.length then
    .ok (memory.take str.length == str)
  else .error .outOfBounds

def skipSlashes (memory : List Char) : List Char :=
  memory.dropWhile (· == '/')

def checks :
    List (List Char × MountPoint) → List Char →
      Except Failure (MountPoint × List Char)
  | [], _ => .error .illegalMountPoint
  | (str, type) :: rest, memory => do
      if ← startsWith str memory then
        return (type, skipSlashes (memory.drop str.length))
      else checks rest memory

def splitPathImpl
    (memory : List Char) :
    Except Failure (MountPoint × List Char) :=
  checks mounts memory

/- What the paths of the host are made from. -/
structure Host where
  elfPath : List Char
  prxStorePath : List Char
  currentPath : List Char

/- `operator/` of paths: an absolute one replaces the other. -/
def join (p q : List Char) : List Char :=
  if q.head? = some '/' then q
  else if p = [] ∨ p.getLast? = some '/' then p ++ q
  else p ++ '/' :: q

/- All that is in front of the last component. -/
def parentPath (p : List Char) : List Char :=
  let front := (p.reverse.dropWhile (· != '/')).reverse
  let trimmed := (front.reverse.dropWhile (· == '/')).reverse
  if trimmed = [] then front.take 1 else trimmed

namespace Host

variable (host : Host)

def absolute (p : List Char) : List Char :=
  join host.currentPath p

def elfdir : List Char :=
  parentPath host.elfPath

def approot : List Char :=
  parentPath host.elfdir

/- There is none for two of the mount points. -/
def root : MountPoint → Option (List Char)
  | .relative => some (join host.elfdir "app_home".toList)
  | .hostHome => some (join host.elfdir "app_home".toList)
  | .hostAbsolute => some (join host.elfdir "host_root".toList)
  | .bluray => some (join host.approot "..".toList)
  | .gameData => some host.approot
  | .systemCache => some (join host.approot "sys_cache".toList)
  | .devFlash => some host.prxStorePath
  | .memoryStick => none
  | .usb => none

end Host

/- A string in memory, up to its terminator. -/
def cString (memory : List Char) : Except Failure (List Char) :=
  if '\x00' ∈ memory then .ok (memory.takeWhile (· != '\x00'))
  else .error .outOfBounds

def toHost
    (host : Host)
    (memory : List Char) : Except Failure (List Char) := do
  let (type, found) ← splitPathImpl memory
  let place :=
    if type = .hostAbsolute then found.drop 3 else found
  match host.root type with
  | some root =>
      return host.absolute (join root (← cString place))
  | none => .error .unknownMountPoint

------------------------------------------------------------
-- Components
------------------------------------------------------------

structure GuestPath where
  chars : List Char
  noNul : '\x00' ∉ chars

namespace GuestPath

variable (p : GuestPath)

def memory : List Char :=
  p.chars ++ ['\x00']

/- A slash in front belongs to the component. -/
def firstComponent : List Char :=
  match p.chars with
  | '/' :: rest => '/' :: rest.takeWhile (· != '/')
  | chars => chars.takeWhile (· != '/')

def mount : Option (List Char × MountPoint) :=
  named.find? (fun m => m.1 == p.firstComponent)

def typeOf : Option (List Char × MountPoint) → MountPoint
  | some (_, type) => type
  | none => .relative

/- All components that a mount point leaves. -/
def behind : Option (List Char × MountPoint) → List Char
  | some (str, _) => skipSlashes (p.chars.drop str.length)
  | none => skipSlashes p.chars

def mountPoint : MountPoint :=
  typeOf p.mount

def components : List Char :=
  p.behind p.mount

/- A letter and a colon, and the slashes behind them. -/
def stripDrive : List Char → List Char
  | letter :: ':' :: rest =>
    if letter.isAlpha then skipSlashes rest
    else letter :: ':' :: rest
  | chars => chars

def remaining : List Char :=
  if p.mountPoint = .hostAbsolute then stripDrive p.components
  else p.components

/-
  Only the whole first component selects a mount point, and
  the result has the rest.  No byte is read that `memory`
  does not have.
-/
structure Resolves (host : Host) : Prop where
  split :
    splitPathImpl p.memory =
      .ok (p.mountPoint, p.components ++ ['\x00'])
  joined :
    toHost host p.memory =
      match host.root p.mountPoint with
      | some root => .ok (host.absolute (join root p.remaining))
      | none => .error .unknownMountPoint

def fits (m : List Char × MountPoint) : Bool :=
  m.1.isPrefixOf p.chars

/- The names that `memcmp` compares before one fits. -/
def missed
    (tries : List (List Char × MountPoint)) :
    List (List Char × MountPoint) :=
  tries.takeWhile (fun m => !p.fits m)

/- All of them can be read. -/
def Readable
    (tries : List (List Char × MountPoint)) : Prop :=
  ∀ m ∈ p.missed tries, m.1.length ≤ p.chars.length + 1

instance (tries : List (List Char × MountPoint)) :
    Decidable (p.Readable tries) :=
  inferInstanceAs (Decidable (∀ m ∈ _, _))

/- A drive and one slash are in front. -/
def HasDrive (chars : List Char) : Prop :=
  ∃ letter rest,
    letter.isAlpha ∧ chars = letter :: ':' :: '/' :: rest ∧
      rest.head? ≠ some '/'

/-
  No name is merely the beginning of the first component, no
  name that is tried in vain is longer than the memory, and
  the three characters that are skipped are a drive.
-/
structure Plain : Prop where
  whole :
    ∀ m ∈ named, m.1 <+: p.chars → m.1 = p.firstComponent
  long : p.Readable named
  drive :
    p.mountPoint = .hostAbsolute → HasDrive p.components

------------------------------------------------------------
-- Mount Points of a Path
------------------------------------------------------------

theorem skipSlashes_memory (chars : List Char) :
    skipSlashes (chars ++ ['\x00']) =
      skipSlashes chars ++ ['\x00'] := by
  unfold skipSlashes
  rw [List.dropWhile_append]
  split
  · next hEmpty =>
    rw [List.isEmpty_iff.mp hEmpty]
    rfl
  · rfl

theorem startsWith_memory
    {str : List Char}
    (hNul : '\x00' ∉ str) :
    startsWith str p.memory =
      if str.length ≤ p.chars.length + 1 then
        .ok (str.isPrefixOf p.chars)
      else .error .outOfBounds := by
  have hLength : p.memory.length = p.chars.length + 1 := by
    simp [memory]
  unfold startsWith
  rw [hLength]
  split
  · congr 1
    rw [Bool.eq_iff_iff, beq_iff_eq, List.isPrefixOf_iff_prefix,
      eq_comm, ← List.prefix_iff_eq_take]
    constructor
    · intro hPrefix
      rcases List.prefix_concat_iff.mp hPrefix with hEq | hShort
      · exact absurd (hEq ▸ by simp) hNul
      · exact hShort
    · intro hPrefix
      exact hPrefix.trans (List.prefix_append _ _)
  · rfl

/- The first name that fits, if `memcmp` gets that far. -/
theorem checks_eq
    (tries : List (List Char × MountPoint))
    (hNul : ∀ m ∈ tries, '\x00' ∉ m.1) :
    checks (tries ++ [([], .relative)]) p.memory =
      if p.Readable tries then
        .ok (typeOf (tries.find? p.fits),
          p.behind (tries.find? p.fits) ++ ['\x00'])
      else .error .outOfBounds := by
  induction tries with
  | nil =>
      have hStarts := @startsWith_memory p [] (by simp)
      have hReadable : p.Readable [] := by
        intro m hM
        cases hM
      rw [if_pos hReadable]
      simp only [List.nil_append, checks, hStarts]
      simp [memory, skipSlashes_memory, typeOf, behind,
        Bind.bind, Except.bind, pure, Except.pure]
  | cons m tries ih =>
      have hTail := ih (fun n hN => hNul n (by simp [hN]))
      rcases m with ⟨str, type⟩
      have hHead : '\x00' ∉ str := hNul (str, type) (by simp)
      simp only [List.cons_append, checks,
        p.startsWith_memory hHead]
      by_cases hFits : p.fits (str, type)
      · have hLe : str.length ≤ p.chars.length :=
          (List.isPrefixOf_iff_prefix.mp hFits).length_le
        have hReadable : p.Readable ((str, type) :: tries) := by
          simp [Readable, missed, hFits]
        have hPrefix : str.isPrefixOf p.chars = true := hFits
        rw [if_pos (by omega), if_pos hReadable,
          List.find?_cons_of_pos hFits]
        simp [hPrefix, memory, skipSlashes_memory, typeOf,
          List.drop_append_of_le_length hLe, behind, Bind.bind,
          Except.bind, pure, Except.pure]
      · have hReadable :
            p.Readable ((str, type) :: tries) ↔
              str.length ≤ p.chars.length + 1 ∧
                p.Readable tries := by
          simp [Readable, missed, hFits]
        have hPrefix : str.isPrefixOf p.chars = false :=
          Bool.eq_false_iff.mpr hFits
        rw [List.find?_cons_of_neg hFits]
        simp only [hReadable]
        by_cases hLong : str.length ≤ p.chars.length + 1
        · simp only [hLong, true_and]
          rw [← hTail, hPrefix]
          rfl
        · simp only [hLong, false_and]
          rfl

theorem splitPathImpl_eq :
    splitPathImpl p.memory =
      if p.Readable named then
        .ok (typeOf (named.find? p.fits),
          p.behind (named.find? p.fits) ++ ['\x00'])
      else .error .outOfBounds :=
  p.checks_eq named (by decide)

theorem firstComponent_prefix :
    p.firstComponent <+: p.chars := by
  unfold firstComponent
  split
  · next rest hChars =>
    rw [hChars]
    exact List.cons_prefix_cons.mpr
      ⟨rfl, List.takeWhile_prefix _⟩
  · exact List.takeWhile_prefix _

theorem named_of_prefix_eq :
    ∀ m ∈ named, ∀ n ∈ named, m.1 <+: n.1 → m = n := by
  decide

theorem named_eq_of_type :
    ∀ m ∈ named, ∀ n ∈ named, m.2 = n.2 → m = n := by
  decide

theorem named_ne_relative :
    ∀ m ∈ named, m.2 ≠ .relative := by
  decide

/- A name that is selected is the first component. -/
theorem mount_eq_some
    {m : List Char × MountPoint}
    (hM : m ∈ named)
    (hType : p.mountPoint = m.2) :
    p.mount = some m ∧ m.1 = p.firstComponent := by
  cases hMount : p.mount with
  | none =>
      have hRelative : p.mountPoint = .relative := by
        unfold mountPoint
        rw [hMount]
        rfl
      exact absurd (hType.symm.trans hRelative)
        (named_ne_relative m hM)
  | some n =>
      have hN : n ∈ named := List.mem_of_find?_eq_some hMount
      have hSame : n.2 = m.2 := by
        rw [← hType]
        unfold mountPoint
        rw [hMount]
        rfl
      have hEq := named_eq_of_type n hN m hM hSame
      have hFirst := List.find?_some hMount
      exact ⟨by rw [hEq], hEq ▸ beq_iff_eq.mp hFirst⟩

theorem mountPoint_of_find
    {m : List Char × MountPoint}
    (hFind : named.find? p.fits = some m)
    (hType : typeOf (named.find? p.fits) = p.mountPoint) :
    p.mountPoint = m.2 := by
  rw [← hType, hFind]
  rfl

theorem splits_iff :
    splitPathImpl p.memory =
        .ok (p.mountPoint, p.components ++ ['\x00']) ↔
      p.Readable named ∧
        ∀ m ∈ named, m.1 <+: p.chars →
          m.1 = p.firstComponent := by
  rw [splitPathImpl_eq]
  constructor
  · intro hSplit
    split at hSplit
    · next hReadable =>
      have hType :=
        congrArg Prod.fst (Except.ok.inj hSplit)
      refine ⟨hReadable, fun m hM hPrefix => ?_⟩
      have hFits : p.fits m := List.isPrefixOf_iff_prefix.mpr
        hPrefix
      cases hFind : named.find? p.fits with
      | none =>
          exact absurd hFits (List.find?_eq_none.mp hFind m hM)
      | some n =>
          have hN : n ∈ named :=
            List.mem_of_find?_eq_some hFind
          have hFirst := (p.mount_eq_some hN
            (p.mountPoint_of_find hFind hType)).2
          have hOther : n.1 <+: p.chars :=
            hFirst ▸ p.firstComponent_prefix
          have hEq : m = n := by
            rcases List.prefix_or_prefix_of_prefix hPrefix
              hOther with hShort | hShort
            · exact named_of_prefix_eq m hM n hN hShort
            · exact (named_of_prefix_eq n hN m hM hShort).symm
          rw [hEq, hFirst]
    · cases hSplit
  · rintro ⟨hReadable, hWhole⟩
    have hAgree :
        named.find? p.fits = p.mount := by
      refine List.find?_congr fun m hM => ?_
      rw [Bool.eq_iff_iff, beq_iff_eq]
      constructor
      · intro hFits
        exact hWhole m hM (List.isPrefixOf_iff_prefix.mp hFits)
      · intro hFirst
        exact List.isPrefixOf_iff_prefix.mpr
          (hFirst ▸ p.firstComponent_prefix)
    rw [if_pos hReadable, hAgree]
    rfl

------------------------------------------------------------
-- Drives
------------------------------------------------------------

variable {chars : List Char}

theorem cString_of_notMem
    (hNul : '\x00' ∉ chars) :
    cString (chars ++ ['\x00']) = .ok chars := by
  have hAll : ∀ c ∈ chars, (c != '\x00') = true := by
    intro c hC
    rw [bne_iff_ne]
    rintro rfl
    exact hNul hC
  unfold cString
  rw [if_pos (by simp),
    List.takeWhile_append_of_pos hAll]
  simp

theorem head_skipSlashes (chars : List Char) :
    (skipSlashes chars).head? ≠ some '/' := by
  intro hHead
  have hNot := List.head?_dropWhile_not (· == '/') chars
  unfold skipSlashes at hHead
  rw [hHead] at hNot
  simp at hNot

theorem skipSlashes_of_head
    (hHead : chars.head? ≠ some '/') :
    skipSlashes chars = chars := by
  cases chars with
  | nil => rfl
  | cons c rest =>
      refine List.dropWhile_cons_of_neg ?_
      rw [beq_iff_eq]
      rintro rfl
      exact hHead rfl

theorem head_components :
    p.components.head? ≠ some '/' := by
  unfold components behind
  split
  all_goals exact head_skipSlashes _

theorem nul_notMem_components :
    '\x00' ∉ p.components := by
  have hSub : p.components.Sublist p.chars := by
    unfold components behind
    split
    · exact (List.dropWhile_sublist _).trans
        (List.drop_sublist _ _)
    · exact List.dropWhile_sublist _
  exact fun hMem => p.noNul (hSub.mem hMem)

variable {letter : Char} (host : Host)

/- What is not absolute is only put behind the root. -/
theorem exists_base
    {root : List Char}
    (hLetter : letter ∈ root) :
    ∃ base, letter ∈ base ∧
      ∀ chars : List Char, chars.head? ≠ some '/' →
        host.absolute (join root chars) = base ++ chars := by
  have hJoin :
      ∀ front : List Char, ∃ slash, ∀ chars : List Char,
        chars.head? ≠ some '/' →
          join front chars = (front ++ slash) ++ chars := by
    intro front
    by_cases hEnd : front = [] ∨ front.getLast? = some '/'
    · refine ⟨[], fun chars hHead => ?_⟩
      rw [join, if_neg hHead, if_pos hEnd, List.append_nil]
    · refine ⟨['/'], fun chars hHead => ?_⟩
      rw [join, if_neg hHead, if_neg hEnd, List.append_assoc]
      rfl
  obtain ⟨slash, hSlash⟩ := hJoin root
  obtain ⟨current, hCurrent⟩ := hJoin host.currentPath
  have hHeads :
      ∀ chars : List Char,
        ((root ++ slash) ++ chars).head? = root.head? := by
    intro chars
    cases root with
    | nil => cases hLetter
    | cons c rest => rfl
  by_cases hRoot : root.head? = some '/'
  · refine ⟨root ++ slash, by simp [hLetter], ?_⟩
    intro chars hHead
    rw [hSlash chars hHead, Host.absolute, join,
      if_pos ((hHeads chars).trans hRoot)]
  · refine ⟨host.currentPath ++ current ++ (root ++ slash),
      by simp [hLetter], ?_⟩
    intro chars hHead
    rw [hSlash chars hHead, Host.absolute, hCurrent]
    · simp
    · rw [hHeads]
      exact hRoot

theorem absolute_of_head
    {root chars : List Char}
    (hHead : chars.head? = some '/') :
    host.absolute (join root chars) = chars := by
  have hJoin : ∀ front, join front chars = chars :=
    fun front => by rw [join, if_pos hHead]
  rw [Host.absolute, hJoin, hJoin]

/- To leave out more than the slashes in front shows. -/
theorem absolute_ne_of_length
    {root chars rest : List Char}
    (hLetter : letter ∈ root)
    (hHead : chars.head? ≠ some '/')
    (hShort : rest.length < chars.length) :
    host.absolute (join root rest) ≠
      host.absolute (join root chars) := by
  obtain ⟨base, -, hBase⟩ := exists_base host hLetter
  intro hEq
  have hLength := congrArg List.length hEq
  rw [hBase chars hHead, List.length_append] at hLength
  by_cases hRest : rest.head? = some '/'
  · rw [absolute_of_head host hRest] at hLength
    omega
  · rw [hBase rest hRest, List.length_append] at hLength
    omega

/- A second slash lets the rest replace the root. -/
theorem absolute_ne_of_slash
    {root rest : List Char}
    (hLetter : 'h' ∈ root)
    (hHead : rest.head? = some '/') :
    host.absolute (join root rest) ≠
      host.absolute (join root (skipSlashes rest)) := by
  obtain ⟨base, hMem, hBase⟩ := exists_base host hLetter
  intro hEq
  rw [absolute_of_head host hHead,
    hBase _ (head_skipSlashes rest)] at hEq
  have hSplit :
      rest.takeWhile (· == '/') ++ skipSlashes rest =
        base ++ skipSlashes rest :=
    List.takeWhile_append_dropWhile.trans hEq
  rw [← List.append_cancel_right hSplit] at hMem
  have hH := List.all_eq_true.mp List.all_takeWhile 'h' hMem
  simp at hH

theorem mem_root_hostAbsolute (host : Host) :
    'h' ∈ join host.elfdir "host_root".toList := by
  unfold join
  split
  · decide
  · split <;> simp

variable {rest : List Char}

theorem stripDrive_of_isAlpha
    (hAlpha : letter.isAlpha) :
    stripDrive (letter :: ':' :: rest) = skipSlashes rest := by
  rw [stripDrive, if_pos hAlpha]

theorem stripDrive_eq_self
    {a b c : Char}
    (hNot : ¬ (a.isAlpha ∧ b = ':')) :
    stripDrive (a :: b :: c :: rest) = a :: b :: c :: rest := by
  unfold stripDrive
  split
  · next letter tail hEq =>
    cases hEq
    rw [if_neg (fun hAlpha => hNot ⟨hAlpha, rfl⟩)]
  · rfl

/- Three characters are skipped, whatever they are. -/
theorem drop_eq_stripDrive_iff
    {root chars : List Char}
    (hLetter : 'h' ∈ root)
    (hHead : chars.head? ≠ some '/')
    (hNul : '\x00' ∉ chars) :
    (cString ((chars ++ ['\x00']).drop 3)).map
          (fun place => host.absolute (join root place)) =
        .ok (host.absolute (join root (stripDrive chars))) ↔
      HasDrive chars := by
  by_cases hLength : chars.length < 3
  · have hEmpty : (chars ++ ['\x00']).drop 3 = [] :=
      List.drop_eq_nil_of_le (by simp; omega)
    rw [hEmpty]
    constructor
    · intro hEq
      cases hEq
    · rintro ⟨letter, rest, -, hEq, -⟩
      rw [hEq] at hLength
      simp only [List.length_cons] at hLength
      omega
  · obtain ⟨a, b, c, rest, rfl⟩ :
        ∃ a b c rest, chars = a :: b :: c :: rest := by
      rcases chars with - | ⟨a, - | ⟨b, - | ⟨c, rest⟩⟩⟩
      · simp at hLength
      · simp at hLength
      · simp at hLength
      · exact ⟨a, b, c, rest, rfl⟩
    have hRest : '\x00' ∉ rest := by
      intro hMem
      exact hNul (by simp [hMem])
    have hString : cString (rest ++ ['\x00']) = .ok rest :=
      cString_of_notMem hRest
    have hPlace :
        (cString ((a :: b :: c :: rest ++ ['\x00']).drop 3)).map
            (fun place => host.absolute (join root place)) =
          .ok (host.absolute (join root rest)) := by
      show (cString (rest ++ ['\x00'])).map _ = _
      rw [hString]
      rfl
    rw [hPlace, Except.ok.injEq]
    by_cases hDrive : a.isAlpha ∧ b = ':'
    · obtain ⟨hAlpha, rfl⟩ := hDrive
      rw [stripDrive_of_isAlpha hAlpha]
      by_cases hSlash : c = '/'
      · subst hSlash
        have hSkip : skipSlashes ('/' :: rest) =
            skipSlashes rest := rfl
        rw [hSkip]
        constructor
        · intro hEq
          refine ⟨a, rest, hAlpha, rfl, fun hOther => ?_⟩
          exact absolute_ne_of_slash host hLetter hOther hEq
        · rintro ⟨letter, tail, -, hEq, hTail⟩
          cases hEq
          rw [skipSlashes_of_head hTail]
      · have hC : (c :: rest).head? ≠ some '/' :=
          fun hEq => hSlash (Option.some.inj hEq)
        rw [skipSlashes_of_head hC]
        constructor
        · intro hEq
          exact absurd hEq (absolute_ne_of_length host hLetter
            hC (by simp))
        · rintro ⟨letter, tail, -, hEq, -⟩
          cases hEq
          exact absurd rfl hSlash
    · rw [stripDrive_eq_self hDrive]
      constructor
      · intro hEq
        exact absurd hEq (absolute_ne_of_length host hLetter
          hHead (by simp; omega))
      · rintro ⟨letter, tail, hAlpha, hEq, -⟩
        cases hEq
        exact absurd ⟨hAlpha, rfl⟩ hDrive

/- Without a drive to skip, the rest is used as it is. -/
theorem joined_of_split
    (hSplit :
      splitPathImpl p.memory =
        .ok (p.mountPoint, p.components ++ ['\x00']))
    (hMount : p.mountPoint ≠ .hostAbsolute) :
    toHost host p.memory =
      match host.root p.mountPoint with
      | some root => .ok (host.absolute (join root p.remaining))
      | none => .error .unknownMountPoint := by
  have hString := cString_of_notMem p.nul_notMem_components
  unfold toHost remaining
  rw [hSplit]
  simp only [Bind.bind, Except.bind, if_neg hMount, hString]
  rfl

theorem joined_iff_hasDrive
    (hSplit :
      splitPathImpl p.memory =
        .ok (p.mountPoint, p.components ++ ['\x00']))
    (hMount : p.mountPoint = .hostAbsolute) :
    (toHost host p.memory =
      match host.root p.mountPoint with
      | some root => .ok (host.absolute (join root p.remaining))
      | none => .error .unknownMountPoint) ↔
      HasDrive p.components := by
  rw [← drop_eq_stripDrive_iff host
    (mem_root_hostAbsolute host) p.head_components
    p.nul_notMem_components]
  unfold toHost remaining
  rw [hSplit, hMount]
  rfl

/- A mount point comes from one first component only. -/
theorem firstComponent_eq_of_split
    {q : GuestPath}
    (hP : p.Plain)
    (hQ : q.Plain)
    {type : MountPoint}
    {found other : List Char}
    (hFound : splitPathImpl p.memory = .ok (type, found))
    (hOther : splitPathImpl q.memory = .ok (type, other))
    (hMount : type ≠ .relative) :
    p.firstComponent = q.firstComponent := by
  rw [p.splits_iff.mpr ⟨hP.long, hP.whole⟩] at hFound
  rw [q.splits_iff.mpr ⟨hQ.long, hQ.whole⟩] at hOther
  have hPType := congrArg Prod.fst (Except.ok.inj hFound)
  have hQType := congrArg Prod.fst (Except.ok.inj hOther)
  dsimp only at hPType hQType
  cases hEq : p.mount with
  | none =>
      refine absurd hPType.symm ?_
      unfold mountPoint
      rw [hEq]
      exact hMount
  | some m =>
      have hM : m ∈ named := List.mem_of_find?_eq_some hEq
      have hType : p.mountPoint = m.2 := by
        unfold mountPoint
        rw [hEq]
        rfl
      rw [← (p.mount_eq_some hM hType).2,
        (q.mount_eq_some hM
          (hQType.trans (hPType.symm.trans hType))).2]

theorem resolves_iff
    (host : Host) :
    (p.Resolves host ↔ p.Plain) ∧
      ∀ (q : GuestPath) (type : MountPoint)
        (found other : List Char),
        p.Plain → q.Plain →
          splitPathImpl p.memory = .ok (type, found) →
            splitPathImpl q.memory = .ok (type, other) →
              type ≠ .relative →
                p.firstComponent = q.firstComponent := by
  refine ⟨?_, fun q type found other hP hQ => ?_⟩
  · constructor
    · rintro ⟨hSplit, hJoined⟩
      obtain ⟨hReadable, hWhole⟩ := p.splits_iff.mp hSplit
      refine ⟨hWhole, hReadable, fun hMount => ?_⟩
      exact (p.joined_iff_hasDrive host hSplit hMount).mp
        hJoined
    · rintro ⟨hWhole, hReadable, hDrive⟩
      have hSplit := p.splits_iff.mpr ⟨hReadable, hWhole⟩
      refine ⟨hSplit, ?_⟩
      by_cases hMount : p.mountPoint = .hostAbsolute
      · exact (p.joined_iff_hasDrive host hSplit hMount).mpr
          (hDrive hMount)
      · exact p.joined_of_split host hSplit hMount
  · exact p.firstComponent_eq_of_split hP hQ

/-
  A longer first component resolves to the same mount point,
  and a short path is read beyond its end.
-/
theorem not_resolves :
    let host : Host :=
      { elfPath := "/games/demo/USRDIR/EBOOT.elf".toList
        prxStorePath := "/store".toList
        currentPath := "/".toList }
    let longer : GuestPath :=
      { chars := "/dev_hdd0abc".toList
        noNul := by decide }
    let short : GuestPath :=
      { chars := "/tmp".toList
        noNul := by decide }
    splitPathImpl longer.memory =
        .ok (.gameData, "abc\x00".toList) ∧
      longer.firstComponent = "/dev_hdd0abc".toList ∧
      splitPathImpl short.memory = .error .outOfBounds ∧
      ¬ longer.Resolves host ∧ ¬ short.Resolves host := by
  refine ⟨by decide, by decide, by decide, ?_, ?_⟩
  · intro hResolves
    have hMount := hResolves.split
    revert hMount
    decide
  · intro hResolves
    have hMount := hResolves.split
    revert hMount
    decide

end GuestPath

end GuestPaths

end Ps3emu
