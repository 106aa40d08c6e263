import Javadoc.Text.Basic

/-! What can go wrong, by cause, and the one wording of each cause. -/
namespace Javadoc

def Text.ofNat (n : Nat) : Text := Nat.toDigits 10 n

inductive ReadFault where
  | notUnicode
  | missing
  | isDirectory
  | underFile
  deriving DecidableEq, Repr

inductive ConfigFault where
  /-- The text is no configuration; why is not told. -/
  | syntaxFault
  | emptyName
  | duplicateName (name : Text)
  | unknownKey (key : Text)
  | notJavaSource (path : Text)
  deriving DecidableEq, Repr

inductive EditFault where
  | outside (start stop size : Nat)
  | splitsCharacter (start stop : Nat)
  | overlaps (start stop : Nat)
  /-- A type that does not lie in the file it is said to be in. -/
  | classOutside (path : Text)
  deriving DecidableEq, Repr

inductive Error where
  | unreadable (fault : ReadFault)
  | fileNotFound (path : Text)
  | directoryNotFound (path : Text)
  | invalidConfig (fault : ConfigFault)
  | noContainer (path : Text)
  | invalidEdit (fault : EditFault)
  deriving DecidableEq, Repr

namespace ReadFault

def message : ReadFault → Text
  | notUnicode => "stream did not contain valid UTF-8".toList
  | missing => "No such file or directory (os error 2)".toList
  | isDirectory => "Is a directory (os error 21)".toList
  | underFile => "Not a directory (os error 20)".toList

end ReadFault

namespace ConfigFault

def message : ConfigFault → Text
  | syntaxFault => "TOML parse error".toList
  | emptyName => "custom template with an empty name".toList
  | duplicateName name => "duplicate custom template name: ".toList ++ name
  | unknownKey key => "unknown template key: ".toList ++ key
  | notJavaSource path => path ++ " is not a Java source file".toList

end ConfigFault

namespace EditFault

def showRange (start stop : Nat) : Text :=
  "range ".toList ++ Text.ofNat start ++ "..".toList ++ Text.ofNat stop

def message : EditFault → Text
  | outside start stop size =>
    showRange start stop ++ " outside of source of length ".toList ++ Text.ofNat size
  | splitsCharacter start stop => showRange start stop ++ " splits a character".toList
  | overlaps start stop => showRange start stop ++ " overlaps a previous edit".toList
  | classOutside path => "class range out of ".toList ++ path

end EditFault

namespace Error

def message : Error → Text
  | unreadable fault => "IO error: ".toList ++ fault.message
  | fileNotFound path => "File not found: ".toList ++ path
  | directoryNotFound path => "Directory not found: ".toList ++ path
  | invalidConfig fault => "Invalid configuration: ".toList ++ fault.message
  | noContainer path => "No class declaration found in ".toList ++ path
  | invalidEdit fault => "Invalid edit: ".toList ++ fault.message

end Error
end Javadoc
