import MemberAccess.Config
import MemberAccess.Context
import MemberAccess.Core.Classes
import MemberAccess.Inspection
import MemberAccess.Record
import MemberAccess.Site
import MemberAccess.Proofs.Registry.Growth
import MemberAccess.Proofs.Registry.Order
import MemberAccess.Proofs.Registry.Linearization
import MemberAccess.Proofs.Introspection.Query
import MemberAccess.Proofs.Introspection.Exposure
import MemberAccess.Proofs.Introspection.Soundness
import MemberAccess.Proofs.Introspection.Population
import MemberAccess.Proofs.Introspection.Denial
import MemberAccess.Proofs.Introspection.Grounding
import MemberAccess.Proofs.Introspection.Recall
import MemberAccess.Proofs.Binding.Member
import MemberAccess.Proofs.Binding.Origin
import MemberAccess.Proofs.Binding.Property
import MemberAccess.Proofs.Binding.Recurrence
import MemberAccess.Proofs.Evaluation
import MemberAccess.Proofs.Introspection.Coherence
import MemberAccess.Proofs.Introspection.History
import MemberAccess.Proofs.Session
import MemberAccess.Proofs.Session.CallSite
import MemberAccess.Proofs.Session.PropertySite
import MemberAccess.Proofs.Session.Applicability
import MemberAccess.Proofs.Session.Permission
import MemberAccess.Proofs.Session.Retirement
import MemberAccess.Proofs.Policy.Layers
import MemberAccess.Proofs.Rule.Lexing
import MemberAccess.Proofs.Rule.Grammar
import MemberAccess.Proofs.Registry.Reach
import MemberAccess.Proofs.Introspection.Inheritance
import MemberAccess.Proofs.Binding.Barren
import MemberAccess.Proofs.Session.RetiredClass
import MemberAccess.Proofs.Registry.Store
import MemberAccess.Proofs.Registry.Rooted
import MemberAccess.Proofs.Session.FirstUse
import MemberAccess.Proofs.Introspection.Agreement
import MemberAccess.Proofs.Binding.Fixed
import MemberAccess.Proofs.Binding.Bracket
import MemberAccess.Proofs.Binding.OtherKey
import MemberAccess.Proofs.Session.BracketReplay
import MemberAccess.Proofs.Registry.Names
import MemberAccess.Proofs.Heap
import MemberAccess.Proofs.Binding.Container
import MemberAccess.Proofs.Binding.ReadBack
import MemberAccess.Proofs.Session.Ambiguity
import MemberAccess.Proofs.Binding.Bare
import MemberAccess.Proofs.Binding.Element
import MemberAccess.Proofs.Arrays
import MemberAccess.Proofs.Session.Arrays
import MemberAccess.Proofs.Overload.Least
import MemberAccess.Proofs.Registry.ShortestPath
import MemberAccess.Proofs.Overload.Subtyping
import MemberAccess.Proofs.Rule.Insertion
import MemberAccess.Proofs.Registry.Components
import MemberAccess.Proofs.Introspection.ExactMatch
import MemberAccess.Proofs.Binding.Trial
import MemberAccess.Proofs.Session.Rejection
import MemberAccess.Proofs.Session.Replay
import MemberAccess.Proofs.Policy.Composition
import MemberAccess.Proofs.Policy.Configured
import MemberAccess.Proofs.Rule.Offence
import MemberAccess.Proofs.Display
import MemberAccess.Proofs.Session.Display
import MemberAccess.Proofs.Registry.Assignability
import MemberAccess.Proofs.Session.Bookkeeping
import MemberAccess.Proofs.Fields
import MemberAccess.Proofs.Session.Constant
import MemberAccess.Proofs.Firsts
import MemberAccess.Proofs.Overload.Collision
import MemberAccess.Proofs.Registry.Methods
import MemberAccess.Proofs.Introspection.Construction
import MemberAccess.Proofs.Policy.Packages
import MemberAccess.Proofs.Rule.Segments
import MemberAccess.Proofs.Substrings
