import MatlabDocs.Reference.Role
import MatlabDocs.Catalog.Exception
import MatlabDocs.Proofs.Class.Indentation
import MatlabDocs.Proofs.Class.Answers
import MatlabDocs.Proofs.Reference.Rereading
import MatlabDocs.Proofs.Source.ContinuedLines
import MatlabDocs.Proofs.Source.ScriptComments
import MatlabDocs.Proofs.Reference.HiddenSigns
import MatlabDocs.Proofs.Function.IrrelevantBlanks
import MatlabDocs.Proofs.Catalog.FileMembers
import MatlabDocs.Proofs.Catalog.BaseLinks
import MatlabDocs.Proofs.Signature.ParameterLists
import MatlabDocs.Proofs.Signature.SignatureSplits
import MatlabDocs.Proofs.Reference.ListedObjects
import MatlabDocs.Proofs.Page.DocumentedMembers
import MatlabDocs.Proofs.Class.TruthValues
import MatlabDocs.Proofs.Class.BaseLists
import MatlabDocs.Proofs.Class.Validators
import MatlabDocs.Proofs.Class.MethodNames
import MatlabDocs.Proofs.Reference.RolelessReferences
import MatlabDocs.Proofs.Reference.IndexGroups
import MatlabDocs.Proofs.Reference.ClassQualification
import MatlabDocs.Proofs.Catalog.BaseNames
import MatlabDocs.Proofs.Token.CommentEnds
import MatlabDocs.Proofs.Token.FunctionHeads
import MatlabDocs.Proofs.Catalog.MemberNumbers
