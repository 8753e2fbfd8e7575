import EmberClasses.Proofs.FileConversion
import EmberClasses.Proofs.ImportRoundTrip

/-! What the imports of a file bind after its conversion. A name is moved to a decorator if some
class needs the decorator and no import of its module binds the name; all other names keep their
meaning, and so does the code that uses them and is left in place. -/

namespace EmberClasses

namespace Import

namespace Declaration

end Declaration

namespace Plan

variable {imports : List Declaration} {wanted : List Builtin} {i : Nat} {d : Declaration}
  {b : Named}

end Plan

end Import

namespace Conversion

open Script (Node Kind)
open Import (Declaration Plan)

section Answers

variable {j : Job} {answers : List (Definition × Bool)} {p q : Progress}

end Answers

section Script

variable {script : Node} {answers : List (Definition × Bool)}

end Script

section Spreads

end Spreads

end Conversion

end EmberClasses
