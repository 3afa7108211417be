import TwoLevel.Term.Covered
import TwoLevel.Term.Text
import TwoLevel.Formula.Construct
import TwoLevel.Formula.Text
import TwoLevel.Session.Operations
import TwoLevel.CrossCheck
import TwoLevel.Proofs.Agreement
import TwoLevel.Proofs.Espresso.Caps
import TwoLevel.Proofs.Espresso.Trace
import TwoLevel.Proofs.Session.Freshness
import TwoLevel.Proofs.Store.History
import TwoLevel.Proofs.Formula.Equality
import TwoLevel.Proofs.Formula.Sets
import TwoLevel.Proofs.Formula.Algebraic
import TwoLevel.Proofs.Formula.IndexForm
import TwoLevel.Proofs.Function
import TwoLevel.Proofs.QuineMcCluskey.Table
import TwoLevel.Proofs.Session.Demand
import TwoLevel.Proofs.Session.Installation
import TwoLevel.Proofs.Session.Naming
import TwoLevel.Proofs.Session.Record
import TwoLevel.Proofs.Session.Refusal
import TwoLevel.Proofs.Cover.Splitting
import TwoLevel.Proofs.Cover.Columns
import TwoLevel.Proofs.QuineMcCluskey.Trial
import TwoLevel.Proofs.Implicant.Selection
import TwoLevel.Proofs.Tracing
import TwoLevel.Proofs.Formula.Check
import TwoLevel.Proofs.Formula.Constant
import TwoLevel.Proofs.Term.Order
import TwoLevel.Proofs.Cube.Lattice
import TwoLevel.Proofs.Term.Combine
import TwoLevel.Proofs.Term.Expansion
import TwoLevel.Proofs.Term.Implication
import TwoLevel.Proofs.Term.Text
import TwoLevel.Proofs.Packed.Composition
