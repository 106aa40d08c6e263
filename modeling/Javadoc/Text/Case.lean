import Javadoc.Text.Basic

/-! Letter case. Names are compared with keywords of capital ASCII letters, so the upper case form
is spelled out for the characters it turns into such letters and leaves all others alone. -/
namespace Javadoc.Text

/-- The upper case form of a character whose form starts with an ASCII letter. Any other
character stands for itself: its form starts with a character beyond ASCII, as it does. -/
def upperChar (c : Char) : Text :=
  match c.toNat with
  | 0x00DF => ['S', 'S']
  | 0x0131 => ['I']
  | 0x017F => ['S']
  | 0x01F0 => ['J', Char.ofNat 0x030C]
  | 0x1E96 => ['H', Char.ofNat 0x0331]
  | 0x1E97 => ['T', Char.ofNat 0x0308]
  | 0x1E98 => ['W', Char.ofNat 0x030A]
  | 0x1E99 => ['Y', Char.ofNat 0x030A]
  | 0x1E9A => ['A', Char.ofNat 0x02BE]
  | 0xFB00 => ['F', 'F']
  | 0xFB01 => ['F', 'I']
  | 0xFB02 => ['F', 'L']
  | 0xFB03 => ['F', 'F', 'I']
  | 0xFB04 => ['F', 'F', 'L']
  | 0xFB05 => ['S', 'T']
  | 0xFB06 => ['S', 'T']
  | _ => [c.toUpper]

def upper (t : Text) : Text := t.flatMap upperChar

def eqIgnoreCase (t u : Text) : Bool := t.map Char.toLower == u.map Char.toLower

end Javadoc.Text
