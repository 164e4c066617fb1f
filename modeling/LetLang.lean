import LetLang.Expr.Equality
import LetLang.Expr.Walk
import LetLang.Proofs.BindingHistory
import LetLang.Proofs.Bracketing
import LetLang.Proofs.Extension
import LetLang.Proofs.FailedCalls
import LetLang.Proofs.Guards
import LetLang.Proofs.Interning
import LetLang.Proofs.Modes
import LetLang.Proofs.NestedScopes
import LetLang.Proofs.Reading.Unambiguous
import LetLang.Proofs.Registration
import LetLang.Proofs.Renaming.Order
import LetLang.Proofs.Renaming.Straying
import LetLang.Proofs.Renaming.Supply
import LetLang.Proofs.Silence
import LetLang.Scope
