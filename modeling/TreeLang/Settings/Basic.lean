import TreeLang.Text.Quoted

/-!
# Settings

How programs are run and served. A scoping policy is kept by its name; the time limit counts
nanoseconds.
-/

namespace TreeLang

/-- The settings of a project. -/
structure Settings where
  scoping : String := "static"
  skipCheck : Bool := false
  maxDepth : Int := 10000
  address : String := ":7788"
  timeout : Int := 5000000000
deriving DecidableEq, Repr, Inhabited

namespace Settings

/-- The dynamic policy is chosen. -/
def isDynamic (s : Settings) : Bool := s.scoping == "dynamic"

/-- The name of a policy. -/
def isScoping (name : String) : Bool := name == "static" || name == "dynamic"

/-- What is said of a name that is no policy, which is given between quotes. -/
def scopingRefusal (quoted : String) : String :=
  "scoping must be " ++ Text.quoted "static" ++ " or " ++ Text.quoted "dynamic" ++ ", got " ++
    quoted

/-- What is said of a name that is no policy. -/
def unknownScoping (name : String) : String := scopingRefusal (Text.quoted name)

end Settings

end TreeLang
