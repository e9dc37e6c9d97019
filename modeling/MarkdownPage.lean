import MarkdownPage.Command.Session
import MarkdownPage.File.Layout
import MarkdownPage.Main
import MarkdownPage.Proofs.Article.Grammar
import MarkdownPage.Proofs.Article.Headings
import MarkdownPage.Proofs.Article.Isolation
import MarkdownPage.Proofs.Article.Paragraphs
import MarkdownPage.Proofs.Article.Sections
import MarkdownPage.Proofs.Article.Tokens
import MarkdownPage.Proofs.Span.Pattern
import MarkdownPage.Proofs.File.Volume
import MarkdownPage.Proofs.Publish
import MarkdownPage.Proofs.Html.Entities
import MarkdownPage.Proofs.Page.Template
import MarkdownPage.Proofs.Article.Frames
import MarkdownPage.Proofs.Span.Brackets
import MarkdownPage.Proofs.Span.Images
import MarkdownPage.Proofs.Fence.Decomposition
import MarkdownPage.Proofs.Span.Address
import MarkdownPage.Proofs.Span.Lines
import MarkdownPage.Proofs.Table.Decomposition
import MarkdownPage.Proofs.Table.Accounts
import MarkdownPage.Proofs.ItemList.Groups
import MarkdownPage.Proofs.Paragraph.Parts
import MarkdownPage.Proofs.Page.LineEnds
import MarkdownPage.Proofs.Span.Nesting
import MarkdownPage.Proofs.Span.LeftOver
import MarkdownPage.Proofs.Fragment.Spelling
import MarkdownPage.Proofs.Bytes.Article
