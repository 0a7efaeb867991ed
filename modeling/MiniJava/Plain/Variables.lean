import MiniJava.CommandLine.Toolkit
import MiniJava.Text.Integer

/-!
# Variables of the environment

How the value of a variable is understood.  An empty variable is as good as none.

* **`Variables.reader`** — texts as they are, numbers in decimal, and a number of words for yes.
-/

namespace MiniJava.Plain.Variables

open CommandLine

/-- What a variable says, if it says anything. -/
def said? (value : Option Bytes) : Option Bytes := value.filter (!·.isEmpty)

/-- The words that say yes. -/
def yesWords : List String :=
  ["1", "t", "T", "true", "True", "TRUE", "y", "Y", "yes", "Yes", "YES", "enable", "Enable",
   "ENABLE", "enabled", "Enabled", "ENABLED", "positive", "Positive", "POSITIVE", "absolutely",
   "Absolutely", "ABSOLUTELY", "affirmative", "Affirmative", "AFFIRMATIVE"]

/-- How variables are read.  What is no number leaves the number that is given. -/
def reader : VariableReader where
  text value s := (said? value).getD s
  int value n := ((said? value).bind Integer.plain?).getD n
  has value := (said? value).isSome
  switch value := (said? value).any fun s => yesWords.any (utf8 · == s)

end MiniJava.Plain.Variables
