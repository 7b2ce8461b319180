/-!
# Diagnostics of alias resolution

What can be wrong with the aliases of one token source. Resolution never stops at a problem: it
writes a placeholder into the text and records a `Diagnostic`.
-/

namespace DesignTokens.Alias

/-- A problem met while the aliases of a text are resolved. -/
inductive Diagnostic where
  /-- A marker or a pointer names an anchor that nothing defines. -/
  | unresolvedAlias (name : String)
  /-- Following the pointers of an anchor comes back to a name already met. -/
  | cyclicAnchorChain (chain : List String)
  deriving DecidableEq, Repr

/-- The names of a chain with an arrow between each two. -/
def arrowed (chain : List String) : String :=
  " -> ".intercalate chain

/-- The text a user reads. -/
def Diagnostic.message : Diagnostic → String
  | unresolvedAlias name => "cannot find value for anchor `" ++ name ++ "`"
  | cyclicAnchorChain chain => "cyclic anchor chain: " ++ arrowed chain

end DesignTokens.Alias
