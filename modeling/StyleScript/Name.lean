import StyleScript.Text

/-! Names of variables and functions. A dash and an underscore are the same letter in a
variable's name; a function's name is also blind to the case of its letters. Letters and digits
are those of ASCII. -/

namespace StyleScript.Name

def continues (c : Char) : Bool := c.isAlphanum || c == '_' || c == '-'

def startsIdentifier (c : Char) : Bool := c.isAlpha || c == '_'

def isIdentifier : Text → Bool
  | c :: rest => startsIdentifier c && rest.all continues
  | [] => false

/-- The spelling under which a variable is bound. -/
def variableKey (name : Text) : Text := name.map fun c => if c = '-' then '_' else c

/-- The spelling under which a function is declared: small letters and digits stay, capital
letters become small, and anything else becomes an underscore. -/
def functionKey (name : Text) : Text :=
  name.map fun c =>
    let small := c.toLower
    if small.isLower || small.isDigit then small else '_'

theorem continues_of_startsIdentifier {c : Char} (starts : startsIdentifier c = true) :
    continues c = true := by
  simp only [startsIdentifier, continues, Char.isAlphanum, Bool.or_eq_true] at starts ⊢
  exact .inl (starts.imp .inl id)

theorem variableKey_variableKey (name : Text) : variableKey (variableKey name) = variableKey name := by
  rw [variableKey, variableKey, List.map_map]
  refine List.map_congr_left fun c _ => ?_
  by_cases dash : c = '-' <;> simp [dash]

theorem dash_not_mem_variableKey (name : Text) : '-' ∉ variableKey name := by
  intro member
  obtain ⟨c, _, equal⟩ := List.mem_map.1 member
  by_cases dash : c = '-' <;> simp [dash] at equal

end StyleScript.Name
