import ScopeScript.Text.Printable

/-!
# Quoted text

`quote` writes a text between double quotes so that it fits on one line and shows
every character: quotes and backslashes are escaped by a backslash, the usual
controls by a letter, and all other characters that are not printable by their
code point in hexadecimal notation. The rest of ASCII is written as it is
(`quote_of_ascii`).
-/

namespace ScopeScript

/-- One character inside quotes. -/
def quoteChar (c : Char) : List Char :=
  if c = '\x00' then ['\\', '0']
  else if c = '\t' then ['\\', 't']
  else if c = '\r' then ['\\', 'r']
  else if c = '\n' then ['\\', 'n']
  else if c = '"' then ['\\', '"']
  else if c = '\\' then ['\\', '\\']
  else if isPrintable c then [c]
  else ['\\', 'u', '\x7b'] ++ Nat.toDigits 16 c.toNat ++ ['\x7d']

/-- A text between quotes. -/
def quote (cs : List Char) : List Char :=
  '"' :: (cs.flatMap quoteChar ++ ['"'])

theorem quoteChar_of_ascii {c : Char} (hlow : 0x20 ≤ c.toNat) (hhigh : c.toNat ≤ 0x7E)
    (hquote : c ≠ '"') (hbackslash : c ≠ '\\') : quoteChar c = [c] := by
  have hcontrol : ∀ d : Char, d.toNat < 0x20 → c ≠ d := by
    rintro d hd rfl
    exact Nat.not_lt.mpr hlow hd
  rw [quoteChar, if_neg (hcontrol _ (by decide)), if_neg (hcontrol _ (by decide)),
    if_neg (hcontrol _ (by decide)), if_neg (hcontrol _ (by decide)), if_neg hquote,
    if_neg hbackslash, if_pos (isPrintable_of_ascii hlow hhigh)]

/-- What has only printable characters of ASCII in it, and none of the two that are escaped, is
put between quotes as it is. -/
theorem quote_of_ascii {cs : List Char}
    (h : ∀ c ∈ cs, 0x20 ≤ c.toNat ∧ c.toNat ≤ 0x7E ∧ c ≠ '"' ∧ c ≠ '\\') :
    quote cs = '"' :: (cs ++ ['"']) := by
  have hkept : cs.flatMap quoteChar = cs := by
    induction cs with
    | nil => rfl
    | cons c cs ih =>
      obtain ⟨⟨hlow, hhigh, hquote, hbackslash⟩, hcs⟩ := List.forall_mem_cons.mp h
      rw [List.flatMap_cons, quoteChar_of_ascii hlow hhigh hquote hbackslash, ih hcs]
      rfl
  rw [quote, hkept]

end ScopeScript
