import BlockLang.Failure
import BlockLang.Options.Basic
import BlockLang.Symbol.Table
import BlockLang.Tree.Defects
import BlockLang.Tree.Outline
import BlockLang.Typing.Check
import BlockLang.Proofs.Typing.Checking
import BlockLang.Proofs.Typing.Blame
import BlockLang.Proofs.Scoping.Visibility
import BlockLang.Proofs.Slots.Coherence
import BlockLang.Proofs.Typing.Locality
import BlockLang.Proofs.Defects.Building
import BlockLang.Proofs.Renaming.Checking
import BlockLang.Proofs.Symbol.Uniqueness
import BlockLang.Proofs.Scoping.History
import BlockLang.Proofs.Scoping.Effect
import BlockLang.Proofs.Slots.Failure
import BlockLang.Proofs.Ty.Index
import BlockLang.Proofs.Ty.Resolution
import BlockLang.Proofs.Ty.Text
import BlockLang.Proofs.Defects.Address
import BlockLang.Proofs.Equivalence.Declaration
import BlockLang.Proofs.Equivalence.Positions
import BlockLang.Proofs.Equivalence.Replacement
import BlockLang.Proofs.Typing.Call
import BlockLang.Proofs.Typing.Origin
import BlockLang.Proofs.Log.Walk
import BlockLang.Proofs.Log.Linearization
import BlockLang.Proofs.Options.Level
import BlockLang.Proofs.Symbol.UniqueName
