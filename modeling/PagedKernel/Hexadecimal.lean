/-!
# Numbers as text

Addresses and words are written in lower-case hexadecimal. `hexDigits` writes the digits alone,
`hex` puts `0x` before them, and `hexPadded` fills up with zeros to a width.
-/

namespace PagedKernel

/-- The lower-case hexadecimal digits of `n`, without leading zeros. -/
def hexDigits (n : Nat) : String :=
  String.ofList (Nat.toDigits 16 n)

/-- The number `n` in hexadecimal, after `0x`. -/
def hex (n : Nat) : String :=
  "0x" ++ hexDigits n

/-- The hexadecimal digits of `n`, with zeros in front up to `width` of them. -/
def hexPadded (width n : Nat) : String :=
  let digits := Nat.toDigits 16 n
  String.ofList (List.replicate (width - digits.length) '0' ++ digits)

end PagedKernel
