import ConceptLang.Model
import ConceptLang.Proofs.Accounting
import ConceptLang.Proofs.Blame
import ConceptLang.Proofs.Candour
import ConceptLang.Proofs.CanonicalTypes
import ConceptLang.Proofs.CoherentSessions
import ConceptLang.Proofs.Isolation
import ConceptLang.Proofs.JoinFields
import ConceptLang.Proofs.JoinTyping
import ConceptLang.Proofs.LexicalScoping
import ConceptLang.Proofs.LinkFixpoint
import ConceptLang.Proofs.Memory
import ConceptLang.Proofs.OpenReferences
import ConceptLang.Proofs.ParameterFields
import ConceptLang.Proofs.PlainAgreement
import ConceptLang.Proofs.Refusals
import ConceptLang.Proofs.RepeatedChecks
import ConceptLang.Proofs.ReportText
import ConceptLang.Proofs.ScopeIsolation
import ConceptLang.Proofs.StorageCap
import ConceptLang.Proofs.Verdicts
import ConceptLang.Report.Reader
import ConceptLang.Tree.Draft
import ConceptLang.Typing.Session
import ConceptLang.Proofs.Discovery
import ConceptLang.Proofs.Edits
import ConceptLang.Proofs.ParentChains
import ConceptLang.Proofs.RelationLookup
import ConceptLang.Proofs.ReferenceOrder
import ConceptLang.Proofs.Exchange
import ConceptLang.Proofs.Recollection
import ConceptLang.Proofs.Drafting
