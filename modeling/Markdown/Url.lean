import Markdown.Text.Scan

/-!
# Addresses

Underscores and asterisks of an address would be taken for emphasis. While the rules run, tokens
stand in their places.
-/

namespace Markdown.Url

/-- The token for an underscore. -/
def underscoreToken : Text := "\x7b^^^\x7d".toList

/-- The token for an asterisk. -/
def asteriskToken : Text := "\x7b~~~\x7d".toList

/-- What stands for a character of an address while the rules run. -/
def hideChar (c : Char) : Text :=
  if c = '_' then underscoreToken else if c = '*' then asteriskToken else [c]

/-- Put tokens in the place of underscores and asterisks. -/
def hide (url : Text) : Text :=
  url.flatMap hideChar

/-- Put underscores and asterisks back in the place of their tokens. -/
def reveal (url : Text) : Text :=
  (url.replace underscoreToken ['_']).replace asteriskToken ['*']

end Markdown.Url
