import SourceDeps.Json.Fault
import SourceDeps.Text.Bytes

namespace SourceDeps.Json.Quoted

def hexDigit (n : Nat) : Char := if n < 10 then Char.ofNat (48 + n) else Char.ofNat (87 + n)

def hexValue? (c : Char) : Option Nat :=
  if '0' ≤ c ∧ c ≤ '9' then some (c.toNat - 48)
  else if 'a' ≤ c ∧ c ≤ 'f' then some (c.toNat - 87)
  else if 'A' ≤ c ∧ c ≤ 'F' then some (c.toNat - 55)
  else none

/-- A character as it is written: quotes, backslashes and control characters are escaped. -/
def escaped (c : Char) : List Char :=
  match c with
  | '\x22' => ['\\', '\x22']
  | '\\' => ['\\', '\\']
  | '\x08' => ['\\', 'b']
  | '\x09' => ['\\', 't']
  | '\x0a' => ['\\', 'n']
  | '\x0c' => ['\\', 'f']
  | '\x0d' => ['\\', 'r']
  | c =>
    if c.toNat < 32 then ['\\', 'u', '0', '0', hexDigit (c.toNat / 16), hexDigit (c.toNat % 16)]
    else [c]

def write (s : String) : List Char := '\x22' :: s.toList.flatMap escaped ++ ['\x22']

/-- The character that a letter after a backslash stands for. -/
def escape? : Char → Option Char
  | '\x22' => some '\x22'
  | '\\' => some '\\'
  | '/' => some '/'
  | 'b' => some '\x08'
  | 'f' => some '\x0c'
  | 'n' => some '\x0a'
  | 'r' => some '\x0d'
  | 't' => some '\x09'
  | _ => none

/-- The number that four hexadecimal digits stand for, and the rest. -/
def hex4 : List Char → Except Stop (Nat × List Char)
  | a :: b :: c :: d :: rest =>
    match hexValue? a, hexValue? b, hexValue? c, hexValue? d with
    | some a, some b, some c, some d => .ok (((a * 16 + b) * 16 + c) * 16 + d, rest)
    | _, _, _, _ => .error .malformed
  | cs => .error (if Text.byteLength cs < 4 then .ended else .malformed)

theorem length_hex4 {cs rest : List Char} {n : Nat} (h : hex4 cs = .ok (n, rest)) :
    rest.length < cs.length := by
  unfold hex4 at h
  split at h
  · split at h
    · simp only [Except.ok.injEq, Prod.mk.injEq] at h
      obtain ⟨-, rfl⟩ := h
      simp only [List.length_cons]
      omega
    · simp at h
  · simp at h

/-- The second half of a surrogate pair, and the rest. -/
def lowSurrogate : List Char → Except Stop (Nat × List Char)
  | [] | ['\\'] => .error .ended
  | '\\' :: 'u' :: rest =>
    match hex4 rest with
    | .ok (n, rest) => if 0xDC00 ≤ n ∧ n ≤ 0xDFFF then .ok (n, rest) else .error .malformed
    | .error why => .error why
  | _ => .error .malformed

theorem length_lowSurrogate {cs rest : List Char} {n : Nat}
    (h : lowSurrogate cs = .ok (n, rest)) : rest.length < cs.length := by
  unfold lowSurrogate at h
  split at h
  · simp at h
  · simp at h
  · split at h
    · next heq =>
      split at h
      · simp only [Except.ok.injEq, Prod.mk.injEq] at h
        obtain ⟨-, rfl⟩ := h
        have hlt := length_hex4 heq
        simp only [List.length_cons]
        omega
      · simp at h
    · simp at h
  · simp at h

/-- The character that an escape with digits stands for, read from the digits on, and the rest. -/
def codePoint (cs : List Char) : Except Stop (Char × List Char) :=
  match hex4 cs with
  | .error why => .error why
  | .ok (n, rest) =>
    if 0xDC00 ≤ n ∧ n ≤ 0xDFFF then .error .malformed
    else if 0xD800 ≤ n ∧ n ≤ 0xDBFF then
      match lowSurrogate rest with
      | .error why => .error why
      | .ok (m, rest) => .ok (Char.ofNat ((n - 0xD800) * 0x400 + (m - 0xDC00) + 0x10000), rest)
    else .ok (Char.ofNat n, rest)

theorem length_codePoint {cs rest : List Char} {c : Char} (h : codePoint cs = .ok (c, rest)) :
    rest.length < cs.length := by
  unfold codePoint at h
  split at h
  · simp at h
  · next heq =>
    have hlt := length_hex4 heq
    split at h
    · simp at h
    · split at h
      · split at h
        · simp at h
        · next heq' =>
          have hlt := length_lowSurrogate heq'
          simp only [Except.ok.injEq, Prod.mk.injEq] at h
          obtain ⟨-, rfl⟩ := h
          omega
      · simp only [Except.ok.injEq, Prod.mk.injEq] at h
        obtain ⟨-, rfl⟩ := h
        omega

/-- The character that an escape stands for, read from after its backslash, and the rest. -/
def escapeOf : List Char → Except Stop (Char × List Char)
  | [] => .error .ended
  | c :: cs =>
    if c = 'u' then codePoint cs
    else match escape? c with
      | some d => .ok (d, cs)
      | none => .error .malformed

theorem length_escapeOf {cs rest : List Char} {c : Char} (h : escapeOf cs = .ok (c, rest)) :
    rest.length < cs.length := by
  unfold escapeOf at h
  split at h
  · simp at h
  · split at h
    · have hlt := length_codePoint h
      simp only [List.length_cons]
      omega
    · split at h
      · simp only [Except.ok.injEq, Prod.mk.injEq] at h
        obtain ⟨-, rfl⟩ := h
        simp
      · simp at h

/-- Reads a string from after its first quote; gives its characters and the rest. -/
def read : List Char → Except Stop (List Char × List Char)
  | [] => .error .ended
  | c :: cs =>
    if c = '\x22' then .ok ([], cs)
    else if c = '\\' then
      match _h : escapeOf cs with
      | .error why => .error why
      | .ok (d, rest) => (read rest).map fun (ds, rest) => (d :: ds, rest)
    else if c.toNat < 32 then .error .malformed
    else (read cs).map fun (ds, rest) => (c :: ds, rest)
termination_by cs => cs.length
decreasing_by
  · have hlt := length_escapeOf _h
    simp only [List.length_cons]
    omega
  · simp

/-- Passes over an escape from after its backslash. -/
def skipEscape : List Char → Except Stop (List Char)
  | [] => .error .ended
  | c :: cs =>
    if c = 'u' then (hex4 cs).map (·.2)
    else if (escape? c).isSome then .ok cs
    else .error .malformed

theorem length_skipEscape {cs rest : List Char} (h : skipEscape cs = .ok rest) :
    rest.length < cs.length := by
  unfold skipEscape at h
  split at h
  · simp at h
  · split at h
    · next cs _ =>
      cases heq : hex4 cs with
      | error why => simp [heq, Except.map] at h
      | ok p =>
        simp only [heq, Except.map, Except.ok.injEq] at h
        have hlt : p.2.length < cs.length := length_hex4 heq
        subst h
        simp only [List.length_cons]
        omega
    · split at h
      · simp only [Except.ok.injEq] at h
        subst h
        simp
      · simp at h

/-- Passes over a string from after its first quote. -/
def skip : List Char → Except Stop (List Char)
  | [] => .error .ended
  | c :: cs =>
    if c = '\x22' then .ok cs
    else if c = '\\' then
      match _h : skipEscape cs with
      | .error why => .error why
      | .ok rest => skip rest
    else if c.toNat < 32 then .error .malformed
    else skip cs
termination_by cs => cs.length
decreasing_by
  · have hlt := length_skipEscape _h
    simp only [List.length_cons]
    omega
  · simp

end SourceDeps.Json.Quoted
